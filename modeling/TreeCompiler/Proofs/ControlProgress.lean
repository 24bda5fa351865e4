import TreeCompiler.Proofs.StatementProgress

/-!
# Progress of emitting control flow

Blocks, conditionals, loops and switches of a valid unit are emitted without an internal error.
-/

namespace TreeCompiler

open Step Emission EmitM

variable {testLast : Bool} {continueLabel breakLabel : Label}

variable {cond : NodeId} {stmts : List NodeId} {taken : UInt32} {repeatLabel : Label}

namespace Stmt

theorem conds_renamed (ren : NodeId → NodeId) (stmt : Stmt) :
    (stmt.renamed ren).conds = stmt.conds.map ren := by
  cases stmt <;> rfl

theorem condition_of_mem_conds {stmt : Stmt} (mem : cond ∈ stmt.conds) :
    (Slot.condition, cond) ∈ stmt.slots := by
  cases stmt <;> simp_all [conds, slots]

end Stmt

namespace Outset

variable {o : Outset} {w : Work} {effect : Effect} {e e' : Emission} {id c node : NodeId}
  {slot : Slot} {limit : Nat} {sc : Option UInt32} {rest : List NodeId} {emitter : Emitter}
  {ren : NodeId → NodeId}

variable (o w) in
/-- A statement that control reaches: what its form is, and where its parts stand. -/
structure Entered (id : NodeId) (stmt : Stmt) (ren : NodeId → NodeId) (e : Emission) : Prop
    extends o.Due w id e where
  reached : e.code.reachable = true
  found : o.tree.stmt? id = some stmt
  renamed : w.tree.stmt? id = some (stmt.renamed ren)
  seats : ∀ slot c, (slot, c) ∈ stmt.slots → o.Seat id slot c (ren c)

theorem touches_nothing (x : NodeId) : ¬(Effect.exprs o.tree []).region x := by
  simp [Effect.exprs]

/-- A statement is entered once that is noted. -/
theorem Due.entered {stmt : Stmt} (due : o.Due w id e) (hr : e.code.reachable = true)
    (hm : o.Moves w (.exprs o.tree []) e e') (eq : e'.code = e.code)
    (hf : o.tree.stmt? id = some stmt) (renamed : w.tree.stmt? id = some (stmt.renamed ren))
    (seats : ∀ slot c, (slot, c) ∈ stmt.slots → o.Seat id slot c (ren c)) :
    o.Entered w id stmt ren e' where
  below := due.below
  isStmt := due.isStmt
  tracks := hm.tracks
  covers _ := hm.covers (due.covers hr)
  unsent := hm.unsent due.unsent fun x _ => touches_nothing x
  aimed := hm.aimed due.aimed fun _ _ aims => aims.elim
  reached := by rw [eq, hr]
  found := hf
  renamed := renamed
  seats := seats

namespace Entered

variable {stmt : Stmt} (he : o.Entered w id stmt ren e)

include he

/-- Parts of the statement are still to be emitted. -/
theorem isOpen (ps : ∀ c ∈ rest, c ∈ stmt.children) (hd : rest.Nodup) :
    o.Open w id none rest e where
  below := he.below
  parts c mem := by
    rw [o.tree.children_of_stmt he.found]
    exact ps c mem
  distinct := hd
  tracks := he.tracks
  covers := he.covers he.reached
  owned _ none := by simp at none
  unsent c mem x hb := by
    refine he.unsent x ((Tree.Below.root.child ?_).trans hb)
    rw [o.tree.children_of_stmt he.found]
    exact ps c mem
  aimed := he.aimed.mono (List.subset_cons_self id _)

theorem distinct (em : o.Emittable w) : stmt.children.Nodup := by
  rw [← o.tree.children_of_stmt he.found]
  exact em.fair.distinct id he.below

theorem conds {given : List NodeId} (shows : ∀ done cond rest, stmt.conds = done ++ cond :: rest →
      o.Shows id cond (given ++ done)) : o.Conds w id given stmt.conds ren where
  below := he.below
  seats cond mem := he.seats .condition cond (Stmt.condition_of_mem_conds mem)
  listed cond mem := by
    simp only [Tree.allowsShortCircuit, he.renamed, Option.any_some, Stmt.conds_renamed]
    exact List.elem_eq_true_of_mem (List.mem_map_of_mem mem)
  shows := shows

/-- A statement in the position of a statement is not renamed. -/
theorem statement (c : NodeId) (mem : (Slot.statement, c) ∈ stmt.slots) :
    ren c = c ∧ o.Seat id .statement c c ∧
      ∃ stmt, o.tree.stmt? c = some stmt ∧ stmt.isExecutable := by
  have seat := he.seats .statement c mem
  obtain ⟨eq, hs⟩ := seat.stmt (by decide)
  rw [eq] at seat
  exact ⟨eq, seat, hs⟩

/-- No jump goes to the statement before it is emitted. -/
theorem not_referenced (em : o.Emittable w) {l : Label} (hp : l.kind.isHelper = false)
    (hm : o.Moves w effect e e') (owned : (e'.work.tree.facts id).labelScope = some l.scope) :
    e.code.isReferenced l = false := by
  by_contra referenced
  obtain ⟨own, taken, hk⟩ := he.aimed l hp (by simpa using referenced)
  have small : e'.work.tree.size ≤ UInt32.size := by
    rw [hm.tracks.settled.peels.size]
    exact em.linked.small
  obtain rfl : own = id := hm.tracks.settled.labeled.injective small
    (hm.scopes own l.scope taken) owned
  rcases hk with sent | around
  · exact sent (he.unsent own .root)
  · exact em.linked.notMem_ancestors he.below around

end Entered

theorem Tracks.has (trk : o.Tracks w e) (em : o.Emittable w)
    (hb : o.tree.Below o.root id) : e.work.tree.Has id := by
  rw [Tree.has_iff_lt, trk.settled.peels.size]
  exact em.linked.index_lt_size hb em.fair.present

namespace Open

variable {α β : Type} {m : EmitM α} {f : Label → EmitM β} {mid : α → Emission → Prop}
  {last : β → Emission → Prop}

/-- The statement gets a label of its own. -/
theorem bindLabel (em : o.Emittable w) (ho : o.Open w id sc rest e) (kind : LabelKind)
    (next : ∀ l e', o.Open w id (some l.scope) rest e' → o.Moves w (.code none) e e' →
      l.kind = kind → (∀ taken, sc = some taken → l.scope = taken) → e'.code = e.code →
      Proceeds (o.Moves w (.stmt o.tree id)) (f l) e' last) :
    Proceeds (o.Moves w (.stmt o.tree id)) (EmitM.label id kind >>= f) e last := by
  have labels : Proceeds (o.Moves w (.code none)) (EmitM.label id kind) e _ :=
    ho.tracks.label (ho.tracks.has em ho.below) kind
  refine Proceeds.bind_within labels (fun _ hm => hm.within Effect.code_within_stmt) ?_
  rintro l e' hm ⟨isKind, owned, eq⟩
  have kept := ho.later hm (fun _ _ _ _ hi => hi) fun _ _ aimed => by
    simp [Effect.code] at aimed
  refine next l e' { kept with owned := ?_ } hm isKind (fun taken hk => ?_) eq
  · intro taken hk
    rwa [← hk]
  · have b := kept.owned taken hk
    rw [owned] at b
    exact Option.some.inj b

/-- A last step that puts code together. -/
theorem endCode (ho : o.Open w id sc rest e) (fst : Proceeds (o.Moves w (.code sc)) m e mid) :
    Proceeds (o.Moves w (.stmt o.tree id)) m e fun _ e' => Aimed (id :: o.tree.ancestors id) e' :=
  fst.mono (fun _ hm => hm.within Effect.code_within_stmt) fun _ _ hm _ =>
    (ho.later hm (fun _ _ _ _ hi => hi) fun _ _ aimed => aimed).aimed

end Open

namespace Emittable

variable (em : o.Emittable w)

include em

theorem condDecl_of_seat {stmt : Stmt} (hb : o.tree.Below o.root id)
    (seat : o.Seat id .condition cond node) (hf : o.tree.stmt? cond = some stmt) :
    node = cond ∧ ∃ ty name v, w.tree.stmt? cond = some (.condDecl ty name v) := by
  rcases seat.condition with ⟨-, none⟩ | ⟨eq, ty, name, v, isDecl⟩
  · simp [hf] at none
  · obtain ⟨ren, renamed, -⟩ := em.stmt_seats (hb.child seat.member) isDecl
    exact ⟨eq, ren ty, name, ren v, renamed⟩

theorem constantBool_ok (trk : o.Tracks w e) (hb : o.tree.Below o.root id) :
    ∃ hk, EmitM.constantBool id e = .ok hk e ∧
    (hk = some true → (w.tree.facts id).constant.isSome) ∧
      (hk = some false → w.NeverHolds id) := by
  cases k : (w.tree.facts id).constant with
  | none =>
    refine ⟨none, bind_ok.mpr ⟨_, e, facts_ok.mpr ⟨rfl, rfl⟩, ?_⟩, by simp, by simp⟩
    rw [trk.constant, k]
    rfl
  | some v =>
    obtain ⟨ans, hf⟩ := em.bool? hb k
    refine ⟨ans, bind_ok.mpr ⟨_, e, facts_ok.mpr ⟨rfl, rfl⟩, ?_⟩, fun _ => rfl, ?_⟩
    · rw [trk.constant, k]
      exact readPool_ok.mpr ⟨by rw [trk.pool]; exact hf, rfl⟩
    · rintro rfl
      exact ⟨v, k, hf⟩

/-- What is known about conditions is found out without an error. -/
theorem constantConds_ok (trk : o.Tracks w e) {nodes : List NodeId}
    (hb : ∀ node ∈ nodes, o.tree.Below o.root node) : ∃ hk, constantConds nodes e = .ok hk e ∧
      (hk = some true → ∀ node ∈ nodes, (w.tree.facts node).constant.isSome) ∧
      (hk = some false → ∃ node ∈ nodes, w.NeverHolds node) := by
  induction nodes with
  | nil => exact ⟨some true, rfl, by simp, by simp⟩
  | cons node nodes ih =>
    obtain ⟨fst, hl, isKnown, never⟩ :=
      em.constantBool_ok trk (hb node List.mem_cons_self)
    obtain ⟨rest, hf, allKnown, noneHolds⟩ :=
      ih fun x mem => hb x (List.mem_cons_of_mem node mem)
    cases fst with
    | some h =>
      cases h with
      | true =>
        refine ⟨rest, bind_ok.mpr ⟨_, e, hl, hf⟩, fun all x mem => ?_, fun no => ?_⟩
        · rcases List.mem_cons.mp mem with rfl | mem
          · exact isKnown rfl
          · exact allKnown all x mem
        · obtain ⟨x, mem, never⟩ := noneHolds no
          exact ⟨x, List.mem_cons_of_mem node mem, never⟩
      | false =>
        exact ⟨some false, bind_ok.mpr ⟨_, e, hl, rfl⟩, by simp,
          fun _ => ⟨node, List.mem_cons_self, never rfl⟩⟩
    | none =>
      rcases rest with _ | _ | _
      · exact ⟨none, bind_ok.mpr ⟨_, e, hl, bind_ok.mpr ⟨_, e, hf, rfl⟩⟩, by simp, by simp⟩
      · obtain ⟨x, mem, never⟩ := noneHolds rfl
        exact ⟨some false, bind_ok.mpr ⟨_, e, hl, bind_ok.mpr ⟨_, e, hf, rfl⟩⟩, by simp,
          fun _ => ⟨x, List.mem_cons_of_mem node mem, never⟩⟩
      · exact ⟨none, bind_ok.mpr ⟨_, e, hl, bind_ok.mpr ⟨_, e, hf, rfl⟩⟩, by simp, by simp⟩

end Emittable

namespace Conds

variable {own : NodeId} {given conds : List NodeId} (isConds : o.Conds w own given conds ren)
  (em : o.Emittable w)

include isConds em

theorem declareConds {todo : List NodeId} (hi : todo ⊆ conds) (trk : o.Tracks w e) :
    Proceeds (o.Moves w effect) (Emitter.declareConds (todo.map ren)) e fun _ e' =>
      o.Registered e' todo := by
  induction todo generalizing e with
  | nil => exact Proceeds.pure (.refl trk _) registered_nil
  | cons cond todo ih =>
    have seat := isConds.seats cond (hi List.mem_cons_self)
    have ih : ∀ {e₁}, o.Tracks w e₁ → o.Registered e₁ [cond] →
        Proceeds (o.Moves w effect) (Emitter.declareConds (todo.map ren)) e₁ fun _ e' =>
          o.Registered e' (cond :: todo) := by
      intro e₁ trk registered
      exact (ih (fun _ mem => hi (List.mem_cons_of_mem cond mem)) trk).answering
        fun _ _ hm rest => (hm.registered registered).append rest
    refine Proceeds.bind_read rfl ?_
    rw [trk.stmt?]
    split
    · refine Proceeds.bind (trk.declare (ren cond)) fun _ e₁ hm hd => ?_
      refine ih hm.tracks fun decl mem stmt hs _ => ?_
      obtain rfl := List.mem_singleton.mp mem
      obtain ⟨eq, -⟩ := em.condDecl_of_seat isConds.below seat hs
      rw [← eq]
      exact hd.1
    · rename_i x
      refine ih trk fun decl mem stmt hs _ => ?_
      obtain rfl := List.mem_singleton.mp mem
      obtain ⟨eq, ty, name, v, isDecl⟩ := em.condDecl_of_seat isConds.below seat hs
      rw [← eq] at isDecl
      exact absurd isDecl (x _ _ _)

end Conds

namespace Emits

variable (em : o.Emittable w) (emits : o.Emits w limit emitter) (small : id.index ≤ limit)

include em emits small

theorem blockParts (warn : Bool) (he : o.Entered w id (.block stmts) ren e)
    (ho : o.Open w id sc stmts e') :
    Proceeds (o.Moves w (.stmt o.tree id)) (emitter.sequence warn (stmts.map ren)) e' fun _ e' =>
      o.Open w id sc [] e' := by
  have ps : ∀ stmt ∈ stmts, ren stmt = stmt ∧ o.Seat id .statement stmt stmt := by
    intro stmt mem
    obtain ⟨eq, seat, -⟩ := he.statement stmt (List.mem_map_of_mem mem)
    exact ⟨eq, seat⟩
  have eq : stmts.map ren = stmts := by
    rw [List.map_congr_left fun stmt mem => (ps stmt mem).1, List.map_id']
  have hd : stmts.Nodup := he.distinct em
  rw [eq]
  refine emits.sequence em warn small ho (fun stmt mem => (ps stmt mem).2) ?_ fun _ => registered_nil
  refine fun b stmt t split => shows_of he.found fun name decl hv => ?_
  rw [split] at hd hv
  exact declaredBefore_split hd (by simpa [Tree.declaredAbove, Tree.declaredIn] using hv)

theorem block (warn : Bool) (he : o.Entered w id (.block stmts) ren e) :
    Proceeds (o.Moves w (.stmt o.tree id)) (emitter.stmtBody warn id (.block (stmts.map ren))) e
      fun _ e' => Aimed (id :: o.tree.ancestors id) e' := by
  have ho : o.Open w id none stmts e :=
    he.isOpen (fun _ mem => mem) (he.distinct em)
  refine Proceeds.bind_read rfl ?_
  refine ho.bindCode (ho.tracks.addIf rfl rfl) fun _ e₁ ho _ _ => ?_
  exact Proceeds.bind (emits.blockParts em small warn he ho)
    fun _ e₂ _ ho => ho.endCode (ho.tracks.addIf rfl rfl)

theorem ifElse {conds : List NodeId} {thenBranch : NodeId} {els : Option NodeId}
    (he : o.Entered w id (.ifElse conds thenBranch els) ren e) :
    Proceeds (o.Moves w (.stmt o.tree id))
      (emitter.ifElse id (conds.map ren) (ren thenBranch) (els.map ren)) e
      fun _ e' => Aimed (id :: o.tree.ancestors id) e' := by
  have hd : (conds ++ thenBranch :: els.toList).Nodup := he.distinct em
  obtain ⟨distinctConds, distinctRest, apart⟩ := List.nodup_append.mp hd
  obtain ⟨sameThen, seatThen, isThen⟩ := he.statement thenBranch (by simp [Stmt.slots])
  have isConds : o.Conds w id [] conds ren := by
    refine he.conds fun done cond rest split => shows_of he.found fun name decl hv => ?_
    simp only [Stmt.conds] at split
    simp only [Tree.declaredAbove, Tree.declaredIn, Option.or_none] at hv
    split at hv
    · simp at hv
    · rw [split] at hv distinctConds
      exact declaredBefore_split distinctConds hv
  have ho : o.Open w id none (thenBranch :: els.toList) e :=
    he.isOpen (fun _ mem => List.mem_append_right conds mem) distinctRest
  rw [sameThen]
  refine ho.bindLabel em .elseBranch fun elseLabel e₁ ho _ _ _ _ => ?_
  refine ho.bindLabel em .endBranch fun endLabel e₂ ho _ _ eq _ => ?_
  have owns : endLabel.scope = elseLabel.scope := eq _ rfl
  refine Proceeds.bind_read rfl ?_
  refine ho.bindCode (ho.tracks.addIf rfl rfl) fun _ e₃ ho _ _ => ?_
  refine ho.bindParts em (isConds.condsOrJump em emits small rfl ho.tracks
    ho.covers registered_nil) ?_ ?_ fun _ e₄ ho _ registered => ?_
  · rintro x ⟨cond, mem, hb⟩
    refine ⟨cond, ?_, fun later => apart cond mem cond later rfl, hb⟩
    rw [o.tree.children_of_stmt he.found]
    exact List.mem_append_left _ mem
  · rintro l - rfl
    rw [owns]
  refine ho.bindStmt em emits small (effect_within_stmt seatThen.member) isThen
    (fun hr => em.covers_shown ho.below ho.covers seatThen
      (shows_of he.found fun name decl hv => ?_) (registered hr))
    fun e₅ ho _ _ => ?_
  · simp only [Tree.declaredAbove, Tree.declaredIn, Option.or_none] at hv
    split at hv
    · simp at hv
    · exact declaredBefore_all hv
  cases els with
  | none =>
    refine ho.bindCode (ho.tracks.placeJoin _) fun _ e₆ ho _ _ => ?_
    exact ho.endCode (ho.tracks.addIf rfl rfl)
  | some els =>
    obtain ⟨sameElse, seatElse, isElse⟩ := he.statement els (by simp [Stmt.slots])
    simp only [Option.map_some, sameElse]
    refine ho.bindCode (ho.tracks.jumpIfReachable rfl fun flows => flows) fun _ e₆ ho _ _ => ?_
    refine ho.bindCode (ho.tracks.placeJoin _) fun _ e₇ ho _ _ => ?_
    refine ho.bindStmt em emits small (effect_within_stmt seatElse.member) isElse
      (fun _ => em.covers_shown ho.below ho.covers seatElse
        (shows_nothing he.found fun _ => by simp [Tree.declaredAbove, Tree.declaredIn])
        registered_nil) fun e₈ ho _ _ => ?_
    refine ho.bindCode (ho.tracks.placeJoin _) fun _ e₉ ho _ _ => ?_
    exact ho.endCode (ho.tracks.addIf rfl rfl)

theorem whileNever {conds : List NodeId} {body : NodeId}
    (he : o.Entered w id (.whileLoop conds body testLast) ren e)
    (never : ∃ node ∈ conds.map ren, w.NeverHolds node) (ho : o.Open w id sc [body] e') :
    Proceeds (o.Moves w (.stmt o.tree id))
    (emitter.whileNever id body testLast continueLabel breakLabel) e'
      fun _ e' => Aimed (id :: o.tree.ancestors id) e' := by
  obtain ⟨sameBody, seatBody, isBody⟩ := he.statement body (by simp [Stmt.slots])
  cases testLast with
  | false => exact ho.endCode (ho.tracks.setReachable body false)
  | true =>
    have shows : o.Shows id body [] := by
      intro form isForm use name decl under isName refers hv
      rw [he.found] at isForm
      cases isForm
      obtain ⟨mem, dcl⟩ := declaredBefore_all
        (show o.tree.declaredBefore name body conds = some decl by
          simpa [Tree.declaredAbove, Tree.declaredIn] using hv)
      refine absurd ⟨id, conds.map ren, body, he.below, ?_, never, body, use, name, decl,
        List.mem_singleton_self body, under, isName, refers, ?_⟩ em.tested
      · rw [he.renamed, Stmt.renamed, sameBody]
      · have seat := he.seats .condition decl (by simp [Stmt.slots, mem])
        cases hf : o.tree.stmt? decl with
        | none => simp [Tree.declaresLocal, hf] at dcl
        | some stmt =>
          obtain ⟨eq, -⟩ := em.condDecl_of_seat he.below seat hf
          exact List.mem_map.mpr ⟨decl, mem, eq⟩
    refine Proceeds.bind_read rfl ?_
    refine ho.bindCode (ho.tracks.addIf rfl rfl) fun _ e₁ ho _ _ => ?_
    refine ho.bindStmt em emits small (effect_within_stmt seatBody.member) isBody
      (fun _ => em.covers_shown ho.below ho.covers seatBody shows registered_nil)
      fun e₂ ho _ _ => ?_
    refine ho.bindCode (ho.tracks.placeJoin _) fun _ e₃ ho _ _ => ?_
    refine ho.bindCode (ho.tracks.placeJoin _) fun _ e₄ ho _ _ => ?_
    exact ho.endCode (ho.tracks.addIf rfl rfl)

theorem loopBody {α : Type} {conds : List NodeId} {body : NodeId}
    {f : Unit → EmitM α} {last : α → Emission → Prop}
    (he : o.Entered w id (.whileLoop conds body testLast) ren e)
    (ho : o.Open w id sc [body] e') (registered : o.Registered e' conds)
    (next : ∀ e'', o.Open w id sc [] e'' → Proceeds (o.Moves w (.stmt o.tree id)) (f ()) e'' last) :
    Proceeds (o.Moves w (.stmt o.tree id)) (emitter.stmt body >>= f) e' last := by
  obtain ⟨sameBody, seatBody, isBody⟩ := he.statement body (by simp [Stmt.slots])
  refine ho.bindStmt em emits small (effect_within_stmt seatBody.member) isBody
    (fun _ => em.covers_shown ho.below ho.covers seatBody
      (shows_of he.found fun name decl hv => ?_) registered)
    fun e₁ ho _ _ => next e₁ ho
  exact declaredBefore_all (by simpa [Tree.declaredAbove, Tree.declaredIn] using hv)

theorem whileAlways {conds : List NodeId} {body : NodeId} (owns : repeatLabel.scope = taken)
    (he : o.Entered w id (.whileLoop conds body testLast) ren e)
    (hk : ∀ node ∈ conds.map ren, (w.tree.facts node).constant.isSome)
    (ho : o.Open w id (some taken) [body] e') :
    Proceeds (o.Moves w (.stmt o.tree id))
    (emitter.whileAlways body repeatLabel continueLabel breakLabel) e'
      fun _ e' => Aimed (id :: o.tree.ancestors id) e' := by
  have nothing : ∀ e, o.Registered e conds := by
    intro e decl mem stmt hf _
    have seat := he.seats .condition decl (by simp [Stmt.slots, mem])
    have eq := seat.strips.eq_of_stmt (by simp [hf])
    have none := em.settled.values _ (hk _ (List.mem_map_of_mem mem))
    rw [eq, hf] at none
    simp at none
  refine ho.bindCode (ho.tracks.place _) fun _ e₁ ho _ _ => ?_
  refine ho.bindCode (ho.tracks.place _) fun _ e₂ ho _ _ => ?_
  refine emits.loopBody em small he ho (nothing e₂) fun e₃ ho => ?_
  refine ho.bindCode (ho.tracks.jumpIfReachable ?_ fun flows => flows) fun _ e₄ ho _ _ => ?_
  · simp [Effect.code, owns]
  · exact ho.endCode (ho.tracks.placeJoin _)

theorem whileTested {conds : List NodeId} {body : NodeId}
    (owns : repeatLabel.scope = taken) (ownsToo : continueLabel.scope = taken)
    (he : o.Entered w id (.whileLoop conds body testLast) ren e)
    (ho : o.Open w id (some taken) [body] e') : Proceeds (o.Moves w (.stmt o.tree id))
      (emitter.whileTested id (conds.map ren) body testLast repeatLabel continueLabel breakLabel) e'
      fun _ e' => Aimed (id :: o.tree.ancestors id) e' := by
  have hd : (conds ++ [body]).Nodup := he.distinct em
  have distinctConds := (List.nodup_append.mp hd).1
  have isConds : o.Conds w id [] conds ren := by
    refine he.conds fun done cond rest split => shows_of he.found fun name decl hv => ?_
    simp only [Stmt.conds] at split
    simp only [Tree.declaredAbove, Option.or_none] at hv
    rw [split] at hv distinctConds
    exact declaredBefore_split distinctConds hv
  have enters : Proceeds (o.Moves w (.code (some taken)))
      (Emitter.enterLoop (e'.work.tree.entersScope id) (conds.map ren)) e' fun _ e₁ =>
        o.Registered e₁ conds := by
    unfold Emitter.enterLoop
    split
    · refine Proceeds.bind (ho.tracks.addPlain rfl rfl) fun _ e₁ hm _ => ?_
      exact isConds.declareConds em (fun _ mem => mem) hm.tracks
    · rename_i open_
      refine Proceeds.pure (.refl ho.tracks _) fun decl mem stmt hf _ => ?_
      obtain ⟨eq, ty, name, v, isDecl⟩ := em.condDecl_of_seat he.below (isConds.seats decl mem) hf
      refine absurd ?_ open_
      simp only [Tree.entersScope, ho.tracks.stmt?, he.renamed, Stmt.renamed,
        Tree.declaresCondition, List.any_eq_true]
      refine ⟨ren decl, List.mem_map_of_mem mem, ?_⟩
      rw [eq, isDecl]
  refine Proceeds.bind_read rfl ?_
  refine ho.bindCode enters fun _ e₁ ho _ registered => ?_
  have jumps : Proceeds (o.Moves w (.code (some taken)))
      (EmitM.addIf (!testLast) (.jump continueLabel)) e₁ fun _ _ => True := by
    unfold EmitM.addIf
    split
    · exact ho.tracks.addJump (by simp [Effect.code, ownsToo]) fun flows => flows
    · exact Proceeds.pure (.refl ho.tracks _) trivial
  refine ho.bindCode jumps fun _ e₂ ho moved _ => ?_
  refine ho.bindCode (ho.tracks.place _) fun _ e₃ ho hp _ => ?_
  refine emits.loopBody em small he ho
    (hp.registered (moved.registered registered)) fun e₄ ho => ?_
  refine ho.bindCode (ho.tracks.placeJoin _) fun _ e₅ ho _ _ => ?_
  have tests : Proceeds (o.Moves w (.tests o.tree conds repeatLabel))
      (emitter.testAgain id (conds.map ren) repeatLabel) e₅ fun _ _ => True := by
    refine Proceeds.bind_read rfl ?_
    cases e₅.code.reachable with
    | true => exact isConds.condsThenJump em emits small ho.tracks ho.covers registered_nil
    | false => exact Proceeds.pure (.refl ho.tracks _) trivial
  refine ho.bindParts em tests ?_ ?_ fun _ e₆ ho _ _ => ?_
  · rintro x ⟨cond, mem, hb⟩
    refine ⟨cond, ?_, by simp, hb⟩
    rw [o.tree.children_of_stmt he.found]
    exact List.mem_append_left _ mem
  · rintro l - rfl
    rw [owns]
  refine ho.bindCode (ho.tracks.placeJoin _) fun _ e₇ ho _ _ => ?_
  exact ho.endCode (ho.tracks.addIf rfl rfl)

theorem whileLoop {conds : List NodeId} {body : NodeId}
    (he : o.Entered w id (.whileLoop conds body testLast) ren e) :
    Proceeds (o.Moves w (.stmt o.tree id))
    (emitter.whileLoop id (conds.map ren) (ren body) testLast) e
      fun _ e' => Aimed (id :: o.tree.ancestors id) e' := by
  obtain ⟨sameBody, -, -⟩ := he.statement body (by simp [Stmt.slots])
  have ho : o.Open w id none [body] e :=
    he.isOpen (by simp [Stmt.children]) (List.nodup_singleton body)
  rw [sameBody]
  refine ho.bindLabel em .repeatLoop fun repeatLabel e₁ ho _ _ _ _ => ?_
  refine ho.bindLabel em .continueLoop fun continueLabel e₂ ho _ _ owns _ => ?_
  refine ho.bindLabel em .breakOut fun breakLabel e₃ ho _ _ ownsToo _ => ?_
  have fst : continueLabel.scope = repeatLabel.scope := owns _ rfl
  have snd : breakLabel.scope = continueLabel.scope := ownsToo _ rfl
  have hb : ∀ node ∈ conds.map ren, o.tree.Below o.root node := by
    intro node mem
    obtain ⟨cond, hi, rfl⟩ := List.mem_map.mp mem
    exact he.below.trans (he.seats .condition cond (by simp [Stmt.slots, hi])).under
  obtain ⟨hk, hf, always, never⟩ := em.constantConds_ok ho.tracks hb
  refine Proceeds.bind_read hf ?_
  rcases hk with _ | _ | _
  · exact emits.whileTested em small (fst.symm.trans snd.symm) snd.symm he ho
  · exact emits.whileNever em small he (never rfl) ho
  · exact emits.whileAlways em small (fst.symm.trans snd.symm) he (always rfl) ho

end Emits

/-! ### Loops with parts before and after their conditions -/

namespace Entered

variable {init conds updates : List NodeId} {body : NodeId}
  (he : o.Entered w id (.forLoop init conds updates body) ren e)
  (em : o.Emittable w)

theorem declaredAbove_for {name : String} {decl : NodeId}
    (hv : o.tree.declaredAbove name c (.forLoop init conds updates body) none = some decl) :
    o.tree.declaredBefore name c conds = some decl ∨
      o.tree.declaredBefore name c init = some decl := by
  simp only [Tree.declaredAbove, Tree.declaredIn, Option.or_none, Option.or_eq_some_iff] at hv
  exact hv.imp_right And.right

include he

theorem simple_for {stmt : NodeId} (mem : stmt ∈ init ∨ stmt ∈ updates) :
    ren stmt = stmt ∧ o.Seat id .simple stmt stmt := by
  have seat := he.seats .simple stmt (by simp [Stmt.slots, mem])
  obtain ⟨eq, -⟩ := seat.stmt (by decide)
  rw [eq] at seat
  exact ⟨eq, seat⟩

/-- Every part of the loop sees what the first part and the conditions declare. -/
theorem shows_for : o.Shows id c (init ++ conds) :=
  shows_of he.found fun _ _ hv => by
    rcases declaredAbove_for hv with late | early
    · obtain ⟨mem, dcl⟩ := declaredBefore_all late
      exact ⟨List.mem_append_right _ mem, dcl⟩
    · obtain ⟨mem, dcl⟩ := declaredBefore_all early
      exact ⟨List.mem_append_left _ mem, dcl⟩

include em

theorem distinct_for : init.Nodup ∧ conds.Nodup ∧ (init ++ body :: updates).Nodup ∧
    ∀ cond ∈ conds, cond ∉ body :: updates := by
  have hd : (init ++ conds ++ updates ++ [body]).Nodup := he.distinct em
  grind

/-- The first part of the loop does not refer to its conditions. -/
theorem shows_init {b t : List NodeId} {stmt : NodeId} (split : init = b ++ stmt :: t) :
    o.Shows id stmt b := by
  intro form isForm use name decl under isName refers hv
  rw [he.found] at isForm
  cases isForm
  rcases declaredAbove_for hv with late | early
  · obtain ⟨mem, -⟩ := declaredBefore_all late
    exact absurd ⟨stmt, use, name, decl, by simp [split], under, isName, refers, mem⟩
      ((em.holds he.below).loop init conds updates body he.found)
  · have hd := (he.distinct_for em).1
    rw [split] at early hd
    exact declaredBefore_split hd early

theorem conds_for : o.Conds w id init conds ren := by
  refine he.conds fun done cond rest split => shows_of he.found fun name decl hv => ?_
  simp only [Stmt.conds] at split
  rcases declaredAbove_for hv with late | early
  · have hd := (he.distinct_for em).2.1
    rw [split] at late hd
    obtain ⟨mem, dcl⟩ := declaredBefore_split hd late
    exact ⟨List.mem_append_right _ mem, dcl⟩
  · obtain ⟨mem, dcl⟩ := declaredBefore_all early
    exact ⟨List.mem_append_left _ mem, dcl⟩

end Entered

namespace Emits

variable (em : o.Emittable w) (emits : o.Emits w limit emitter) (small : id.index ≤ limit)

include em emits small

/-- The last part of a `for` loop is reached by running through the body or by a jump from there, so
that all conditions have been emitted before. -/
theorem forLoop {init conds updates : List NodeId} {body : NodeId}
    (he : o.Entered w id (.forLoop init conds updates body) ren e) :
    Proceeds (o.Moves w (.stmt o.tree id))
      (emitter.forLoop id (init.map ren) (conds.map ren) (updates.map ren) (ren body)) e
      fun _ e' => Aimed (id :: o.tree.ancestors id) e' := by
  obtain ⟨-, -, hd, apart⟩ := he.distinct_for em
  obtain ⟨sameBody, seatBody, isBody⟩ := he.statement body (by simp [Stmt.slots])
  have sameInit : init.map ren = init := by
    rw [List.map_congr_left fun stmt mem => (he.simple_for (.inl mem)).1, List.map_id']
  have sameUpdates : updates.map ren = updates := by
    rw [List.map_congr_left fun stmt mem => (he.simple_for (.inr mem)).1, List.map_id']
  rw [sameBody, sameInit, sameUpdates]
  have isConds := he.conds_for em
  have ho : o.Open w id none (init ++ body :: updates) e :=
    he.isOpen (by simp [Stmt.children]; grind) hd
  refine ho.bindLabel em .test fun testLabel e₁ ho moves₁ _ _ same₁ => ?_
  refine ho.bindLabel em .continueLoop fun continueLabel e₂ ho moves₂ isContinue owns same₂ => ?_
  refine ho.bindLabel em .breakOut fun breakLabel e₃ ho moves₃ isBreak ownsToo same₃ => ?_
  have fst : continueLabel.scope = testLabel.scope := owns _ rfl
  have snd : breakLabel.scope = continueLabel.scope := ownsToo _ rfl
  have hp : continueLabel.kind.isHelper = false := by rw [isContinue]; rfl
  have unaimed : e₃.code.isReferenced continueLabel = false := by
    rw [same₃, same₂, same₁]
    refine he.not_referenced em hp ((moves₁.trans moves₂).trans moves₃) ?_
    rw [← snd]
    exact ho.owned _ rfl
  have hr : e₃.code.reachable = true := by
    rw [same₃, same₂, same₁]
    exact he.reached
  refine ho.bindQuiet em (ho.tracks.addPlain rfl rfl) fun _ e₄ ho moves₄ still => ?_
  refine Proceeds.bind_within (emits.each em small ho (fun _ mem => mem)
    (fun stmt mem => (he.simple_for (.inl mem)).2)
    (fun b stmt t split => he.shows_init em split) fun _ => registered_nil)
    (fun _ hm => hm.within (Effect.within_stmt ?_)) ?_
  · rintro x ⟨stmt, mem, hb⟩
    exact (Tree.Below.root.child (he.simple_for (.inl mem)).2.member).trans hb
  rintro _ e₅ moves₅ ⟨ho, registered⟩
  have registered := registered (by rw [still, hr])
  refine ho.bindQuiet em (ho.tracks.place _) fun _ e₆ ho moves₆ _ => ?_
  have given : o.Registered e₆ (init ++ []) := by
    rw [List.append_nil]
    exact moves₆.registered registered
  refine ho.bindParts em (isConds.condsOrJump em emits small
    (List.nil_append conds).symm ho.tracks ho.covers given) ?_ ?_
    fun _ e₇ ho moves₇ registered => ?_
  · rintro x ⟨cond, mem, hb⟩
    exact ⟨cond, (isConds.seats cond mem).member, apart cond mem, hb⟩
  · rintro l - rfl
    rfl
  refine ho.bindStmt em emits small (effect_within_stmt seatBody.member) isBody
    (fun hr => em.covers_shown ho.below ho.covers seatBody he.shows_for
      (registered hr)) fun e₈ ho moves₈ sends => ?_
  refine ho.bindCode (ho.tracks.placeJoin continueLabel) fun _ e₉ ho moves₉ joined => ?_
  have all : e₉.code.reachable = true → o.Registered e₉ (init ++ conds) := by
    intro arrives
    refine moves₉.registered (moves₈.registered (registered ?_))
    by_contra stopped
    have skipped := sends.skipped (by simpa using stopped)
    have unaimed₇ : e₇.code.isReferenced continueLabel = false := by
      refine moves₇.not_referenced hp ?_ (moves₆.not_referenced hp (by simp [Effect.code])
        (moves₅.not_referenced hp (fun aimed => aimed) (moves₄.not_referenced hp (by simp [Effect.code]) unaimed)))
      rintro rfl
      rw [isContinue] at isBreak
      simp at isBreak
    rcases joined arrives with through | jumped
    · rw [skipped] at through
      exact stopped through
    · rw [skipped, unaimed₇] at jumped
      simp at jumped
  rw [← List.append_nil updates] at ho
  refine Proceeds.bind_within (emits.each em small ho (fun _ mem => mem)
    (fun stmt mem => (he.simple_for (.inr mem)).2)
    (fun b stmt t _ => he.shows_for.mono (List.subset_append_left _ b)) all)
    (fun _ hm => hm.within (Effect.within_stmt ?_)) ?_
  · rintro x ⟨stmt, mem, hb⟩
    exact (Tree.Below.root.child (he.simple_for (.inr mem)).2.member).trans hb
  rintro _ e₁₀ _ ⟨ho, -⟩
  refine ho.bindCode (ho.tracks.jumpIfReachable ?_ fun flows => flows) fun _ e₁₁ ho _ _ => ?_
  · simp [Effect.code, fst, snd]
  refine ho.bindCode (ho.tracks.placeJoin _) fun _ e₁₂ ho _ _ => ?_
  exact ho.endCode (ho.tracks.addPlain rfl rfl)

end Emits

end Outset

end TreeCompiler
