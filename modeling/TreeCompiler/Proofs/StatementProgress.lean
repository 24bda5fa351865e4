import TreeCompiler.Proofs.ExpressionProgress

/-!
# Progress of emitting statements

A statement of a valid unit is emitted without an internal error. Its parts are emitted one after
the other, each at most once and in the order in which they declare locals for each other, so that a
part that control reaches finds registers for everything it refers to. The exception is the body of
a loop that tests last if a condition of the loop is known never to hold, as then no condition is
emitted.
-/

namespace TreeCompiler

open Step Emission EmitM

variable {decls around : List NodeId} {name : String}

namespace Effect

variable {tree : Tree} {id : NodeId}

/-- Code that touches no node and jumps to the labels of one scope. -/
def code (sc : Option UInt32) : Effect :=
  ⟨fun _ => False, fun l => sc = some l.scope, False⟩

/-- The effect of several expressions. -/
def exprs (tree : Tree) (ids : List NodeId) : Effect :=
  ⟨fun x => ∃ id ∈ ids, tree.Below id x, fun _ => False, True⟩

/-- The statement may do everything with the nodes under it. -/
theorem within_stmt {effect : Effect} (hi : ∀ x, effect.region x → tree.Below id x) :
    effect.Within (stmt tree id) where
  region := hi
  aims _ _ _ := trivial
  flows := False.elim

theorem code_within_stmt {sc : Option UInt32} : (code sc).Within (stmt tree id) :=
  within_stmt fun _ hi => hi.elim

end Effect

namespace Outset

variable (o : Outset) (w : Work)

/-- Labels of statements that are jumped to belong to statements that are sent or are among some
that are being emitted. -/
def Aimed (around : List NodeId) (e : Emission) : Prop :=
  ∀ l, l.kind.isHelper = false → e.code.isReferenced l = true →
    ∃ own, (e.work.tree.facts own).labelScope = some l.scope ∧
      (e.work.tree.stage own ≠ .validated ∨ own ∈ around)

/-- Nothing under a node is sent. -/
def Unsent (id : NodeId) (e : Emission) : Prop :=
  ∀ x, o.tree.Below id x → e.work.tree.stage x = .validated

/-- The declarations among some nodes have registers. -/
def Registered (e : Emission) (decls : List NodeId) : Prop :=
  ∀ decl ∈ decls, ∀ stmt, o.tree.stmt? decl = some stmt → stmt.declaredName?.isSome →
    (e.locals.lookup decl).isSome

/-- What names under a child refer to among the declarations of its parent. -/
def Shows (id c : NodeId) (decls : List NodeId) : Prop :=
  ∀ stmt, o.tree.stmt? id = some stmt → ∀ use name decl, o.tree.Below c use →
    o.tree.expr? use = some (.name name) → o.tree.localOf use name = some decl →
    o.tree.declaredAbove name c stmt none = some decl →
    decl ∈ decls ∧ o.tree.declaresLocal name decl = true

/-- It is the turn of a statement to be emitted. -/
structure Due (id : NodeId) (e : Emission) : Prop where
  below : o.tree.Below o.root id
  isStmt : ∃ stmt, o.tree.stmt? id = some stmt ∧ stmt.isExecutable
  tracks : o.Tracks w e
  covers : e.code.reachable = true → o.Covers e id
  unsent : o.Unsent id e
  aimed : Aimed (o.tree.ancestors id) e

/-- A statement that only computes something. -/
def Simple (id : NodeId) : Prop := ∃ stmt, o.tree.stmt? id = some stmt ∧ stmt.isSimple

/-- The effect of a statement: one that only computes something has the effect of an expression. -/
def effect (id : NodeId) : Effect := ⟨o.tree.Below id, fun _ => ¬o.Simple id, o.Simple id⟩

/-- What is left of a state by the emission of a statement. -/
structure Sends (id : NodeId) (b t : Emission) : Prop where
  aimed : Aimed (o.tree.ancestors id) t
  skipped : b.code.reachable = false → t.code = b.code
  registered : b.code.reachable = true → o.Registered t [id]

/-- The nodes up to an index are emitted. -/
structure Emits (limit : Nat) (emitter : Emitter) : Prop where
  expr : o.EmitsExpr w limit emitter.expr
  branch : o.EmitsBranch w limit emitter.branch
  stmt : ∀ {id e}, id.index < limit → o.Due w id e →
    Proceeds (o.Moves w (o.effect id)) (emitter.stmt id) e fun _ e' => o.Sends id e e'

/-- A statement is being emitted: it owns the labels of a scope, and some of its parts are still to
be emitted. -/
structure Open (id : NodeId) (sc : Option UInt32) (rest : List NodeId) (e : Emission) : Prop where
  below : o.tree.Below o.root id
  parts : ∀ c ∈ rest, c ∈ o.tree.children id
  distinct : rest.Nodup
  tracks : o.Tracks w e
  covers : o.Covers e id
  owned : ∀ taken, sc = some taken → (e.work.tree.facts id).labelScope = some taken
  unsent : ∀ c ∈ rest, o.Unsent c e
  aimed : Aimed (id :: o.tree.ancestors id) e

variable {o w} {effect : Effect} {e e' : Emission} {id c node : NodeId} {slot : Slot} {limit : Nat}
  {sc : Option UInt32} {rest : List NodeId}

/-! ### What later steps keep -/

theorem Moves.registered (hm : o.Moves w effect e e') (registered : o.Registered e decls) :
    o.Registered e' decls :=
  fun decl mem stmt hf dcl => hm.locals decl (registered decl mem stmt hf dcl)

theorem Moves.unsent (hm : o.Moves w effect e e') (unsent : o.Unsent id e)
    (apart : ∀ x, o.tree.Below id x → ¬effect.region x) : o.Unsent id e' := by
  intro x hb
  rw [hm.stage x (apart x hb)]
  exact unsent x hb

theorem Moves.aimed (hm : o.Moves w effect e e') (aimed : Aimed around e)
    (aims : ∀ l, l.kind.isHelper = false → effect.aims l →
      ∃ own ∈ around, (e'.work.tree.facts own).labelScope = some l.scope) :
    Aimed around e' := by
  intro l hp referenced
  rcases hm.aims l hp referenced with b | new
  · obtain ⟨own, taken, sent⟩ := aimed l hp b
    exact ⟨own, hm.scopes own l.scope taken, sent.imp_left (hm.sent own)⟩
  · obtain ⟨own, mem, taken⟩ := aims l hp new
    exact ⟨own, taken, .inr mem⟩

/-- Where a step does not jump, no jump goes after it unless one did before. -/
theorem Moves.not_referenced {l : Label} (hm : o.Moves w effect e e')
    (hp : l.kind.isHelper = false) (spared : ¬effect.aims l)
    (b : e.code.isReferenced l = false) : e'.code.isReferenced l = false := by
  by_contra referenced
  rcases hm.aims l hp (by simpa using referenced) with he | aimed
  · simp [b] at he
  · exact spared aimed

/-- A statement that is sent is no longer among those that are being emitted. -/
theorem Aimed.sent (aimed : Aimed (id :: around) e) (sent : e.work.tree.stage id ≠ .validated) :
    Aimed around e := by
  intro l hp referenced
  obtain ⟨own, taken, hk⟩ := aimed l hp referenced
  refine ⟨own, taken, ?_⟩
  rcases hk with gone | mem
  · exact .inl gone
  · rcases List.mem_cons.mp mem with rfl | above
    · exact .inl sent
    · exact .inr above

theorem Aimed.mono {more : List NodeId} (aimed : Aimed around e) (subset : around ⊆ more) :
    Aimed more e := by
  intro l hp referenced
  obtain ⟨own, taken, hk⟩ := aimed l hp referenced
  exact ⟨own, taken, hk.imp_right fun mem => subset mem⟩

theorem effect_within_stmt (mem : c ∈ o.tree.children id) : (o.effect c).Within (.stmt o.tree id) :=
  Effect.within_stmt fun _ hb => (Tree.Below.root.child mem).trans hb

namespace Open

theorem later (ho : o.Open w id sc rest e) (hm : o.Moves w effect e e')
    (apart : ∀ c ∈ rest, ∀ x, o.tree.Below c x → ¬effect.region x)
    (aims : ∀ l, l.kind.isHelper = false → effect.aims l → sc = some l.scope) :
    o.Open w id sc rest e' where
  below := ho.below
  parts := ho.parts
  distinct := ho.distinct
  tracks := hm.tracks
  covers := hm.covers ho.covers
  owned taken eq := hm.scopes id taken (ho.owned taken eq)
  unsent c mem := hm.unsent (ho.unsent c mem) (apart c mem)
  aimed := hm.aimed ho.aimed fun l hp aimed =>
    ⟨id, List.mem_cons_self, hm.scopes id _ (ho.owned _ (aims l hp aimed))⟩

theorem mono {fewer : List NodeId} (ho : o.Open w id sc rest e)
    (sublist : fewer.Sublist rest) : o.Open w id sc fewer e :=
  { ho with
    parts := fun c mem => ho.parts c (sublist.subset mem)
    distinct := ho.distinct.sublist sublist
    unsent := fun c mem => ho.unsent c (sublist.subset mem) }

variable {α β : Type} {m : EmitM α} {f : α → EmitM β} {mid : α → Emission → Prop}
  {last : β → Emission → Prop}

/-- A step that puts code together and touches no node. -/
theorem bindCode (ho : o.Open w id sc rest e) (fst : Proceeds (o.Moves w (.code sc)) m e mid)
    (next : ∀ a e', o.Open w id sc rest e' → o.Moves w (.code sc) e e' → mid a e' →
      Proceeds (o.Moves w (.stmt o.tree id)) (f a) e' last) :
    Proceeds (o.Moves w (.stmt o.tree id)) (m >>= f) e last := by
  refine Proceeds.bind_within fst (fun _ hm => hm.within Effect.code_within_stmt) ?_
  intro a e' hm h
  exact next a e' (ho.later hm (fun _ _ _ _ hi => hi) fun _ _ aimed => aimed) hm h

/-- A step that touches parts that are not to be emitted later. -/
theorem bindParts (em : o.Emittable w) (ho : o.Open w id sc rest e)
    (fst : Proceeds (o.Moves w effect) m e mid) (hi : ∀ x, effect.region x →
      ∃ c ∈ o.tree.children id, c ∉ rest ∧ o.tree.Below c x)
    (aims : ∀ l, l.kind.isHelper = false → effect.aims l → sc = some l.scope)
    (next : ∀ a e', o.Open w id sc rest e' → o.Moves w effect e e' → mid a e' →
      Proceeds (o.Moves w (.stmt o.tree id)) (f a) e' last) :
    Proceeds (o.Moves w (.stmt o.tree id)) (m >>= f) e last := by
  have under : ∀ x, effect.region x → o.tree.Below id x := by
    intro x region
    obtain ⟨c, mem, -, hb⟩ := hi x region
    exact (Tree.Below.root.child mem).trans hb
  refine Proceeds.bind_within fst (fun _ hm => hm.within (Effect.within_stmt under)) ?_
  intro a e' hm h
  refine next a e' (ho.later hm (fun later isLater x hb region => ?_) aims) hm h
  obtain ⟨c, mem, done, touched⟩ := hi x region
  have ne : c ≠ later := by
    rintro rfl
    exact done isLater
  exact em.linked.disjoint_siblings ho.below (ho.parts later isLater) mem ne hb touched

/-- A step that puts code together without jumps. -/
theorem bindQuiet (em : o.Emittable w) (ho : o.Open w id sc rest e)
    (fst : Proceeds (o.Moves w (.code none)) m e mid)
    (next : ∀ a e', o.Open w id sc rest e' → o.Moves w (.code none) e e' → mid a e' →
      Proceeds (o.Moves w (.stmt o.tree id)) (f a) e' last) :
    Proceeds (o.Moves w (.stmt o.tree id)) (m >>= f) e last :=
  ho.bindParts em fst (fun _ hi => hi.elim)
    (fun _ _ aimed => by simp [Effect.code] at aimed) next

theorem afterPart (em : o.Emittable w) (ho : o.Open w id sc (c :: rest) e)
    (hm : o.Moves w effect e e') (hi : ∀ x, effect.region x → o.tree.Below c x)
    (aimed : Aimed (id :: o.tree.ancestors id) e') : o.Open w id sc rest e' where
  below := ho.below
  parts later mem := ho.parts later (List.mem_cons_of_mem _ mem)
  distinct := (List.nodup_cons.mp ho.distinct).2
  tracks := hm.tracks
  covers := hm.covers ho.covers
  owned taken eq := hm.scopes id taken (ho.owned taken eq)
  unsent later mem := by
    have isLater := List.mem_cons_of_mem c mem
    have ne : c ≠ later := by
      rintro rfl
      exact (List.nodup_cons.mp ho.distinct).1 mem
    refine hm.unsent (ho.unsent later isLater) fun x hb touched => ?_
    exact em.linked.disjoint_siblings ho.below (ho.parts later isLater)
      (ho.parts c List.mem_cons_self) ne hb (hi x touched)
  aimed := aimed

/-- A part that is a statement. -/
theorem bindStmt (em : o.Emittable w) {emitter : Emitter} {f : Unit → EmitM β}
    (emits : o.Emits w limit emitter) (ho : o.Open w id sc (c :: rest) e)
    (small : id.index ≤ limit) (win : (o.effect c).Within effect)
    (hs : ∃ stmt, o.tree.stmt? c = some stmt ∧ stmt.isExecutable)
    (covers : e.code.reachable = true → o.Covers e c)
    (next : ∀ e', o.Open w id sc rest e' → o.Moves w (o.effect c) e e' →
      o.Sends c e e' → Proceeds (o.Moves w effect) (f ()) e' last) :
    Proceeds (o.Moves w effect) (emitter.stmt c >>= f) e last := by
  have isChild := ho.parts c List.mem_cons_self
  have lower := em.linked.upward id c ho.below isChild
  have around := em.linked.ancestors_child ho.below isChild
  have due : o.Due w c e :=
    { below := ho.below.child isChild
      isStmt := hs
      tracks := ho.tracks
      covers := covers
      unsent := ho.unsent c List.mem_cons_self
      aimed := by
        rw [around]
        exact ho.aimed }
  refine Proceeds.bind_within (emits.stmt (by omega) due) (fun _ hm => hm.within win) ?_
  intro _ e' hm sends
  refine next e' (ho.afterPart em hm (fun _ hb => hb) ?_) hm sends
  rw [← around]
  exact sends.aimed

end Open

/-! ### Conditions -/

namespace Emittable

variable (em : o.Emittable w)

include em

theorem covers_shown (hb : o.tree.Below o.root id) (covers : o.Covers e id)
    (seat : o.Seat id slot c node) (shows : o.Shows id c decls)
    (registered : o.Registered e decls) : o.Covers e node := by
  refine em.covers_seat hb covers seat ?_
  intro stmt hs use name decl under isName refers hv
  obtain ⟨mem, dcl⟩ := shows stmt hs use name decl under isName refers hv
  unfold Tree.declaresLocal at dcl
  cases hf : o.tree.stmt? decl with
  | none => simp [hf] at dcl
  | some stmt =>
    refine registered decl mem stmt hf ?_
    simp_all

/-- The type of a declaration is known. -/
theorem typed (hb : o.tree.Below o.root id) (seat : o.Seat id .type c node) :
    ∃ ty, (w.tree.facts node).type = some ty := by
  obtain ⟨rfl, expr, ht⟩ := seat.type
  obtain ⟨-, ⟨ty, term, hk, -⟩, -⟩ := (em.holds (hb.child seat.member)).type expr ht
  exact ⟨ty, hk⟩

theorem proceeds_addDeclaration (hb : o.tree.Below o.root id) (trk : o.Tracks w e)
    (seat : o.Seat id .type c node) (reg : Register) :
    Proceeds (o.Moves w effect) (addDeclaration reg node) e fun _ e' =>
      e'.code.reachable = e.code.reachable := by
  obtain ⟨ty, hk⟩ := em.typed hb seat
  refine Proceeds.bind_read rfl ?_
  rw [trk.fact Facts.type (fun _ => rfl), hk]
  exact trk.addPlain rfl rfl

end Emittable

/-- What a statement declares for its part. -/
theorem shows_of {stmt : Stmt} (hf : o.tree.stmt? id = some stmt)
    (dcl : ∀ name decl, o.tree.declaredAbove name c stmt none = some decl →
      decl ∈ decls ∧ o.tree.declaresLocal name decl = true) : o.Shows id c decls := by
  intro x eq use name decl _ _ _ hv
  rw [hf] at eq
  cases eq
  exact dcl name decl hv

theorem Shows.mono {more : List NodeId} (shows : o.Shows id c decls) (subset : decls ⊆ more) :
    o.Shows id c more := by
  intro stmt hf use name decl under isName refers hv
  obtain ⟨mem, dcl⟩ := shows stmt hf use name decl under isName refers hv
  exact ⟨subset mem, dcl⟩

theorem shows_nothing {stmt : Stmt} (hf : o.tree.stmt? id = some stmt)
    (dcl : ∀ name, o.tree.declaredAbove name c stmt none = none) : o.Shows id c [] :=
  shows_of hf fun name decl hv => by simp [dcl] at hv

namespace Emits

variable {emitter : Emitter} (em : o.Emittable w) (emits : o.Emits w limit emitter)

include em emits

theorem condDecl {cond ty v : NodeId} {tgt : Label} (out : Bool)
    (isDecl : o.tree.stmt? cond = some (.condDecl ty name v)) (hb : o.tree.Below o.root cond)
    (small : cond.index ≤ limit) (trk : o.Tracks w e) (covers : o.Covers e cond)
    {ren : NodeId → NodeId} (seats : ∀ slot c,
      (slot, c) ∈ (Stmt.condDecl ty name v).slots → o.Seat cond slot c (ren c)) :
    Proceeds (o.Moves w (.tests o.tree [cond] tgt))
      (emitter.condDecl cond (ren ty) (ren v) out tgt) e fun _ e' => o.Registered e' [cond] := by
  have typeSeat := seats .type ty (by simp [Stmt.slots])
  have valueSeat := seats .expression v (by simp [Stmt.slots])
  have hi : ∀ x, o.tree.Below cond x → (Effect.tests o.tree [cond] tgt).region x :=
    fun x hb => ⟨cond, List.mem_singleton_self cond, hb⟩
  have lower := valueSeat.index_lt em.linked hb
  refine Proceeds.bind (trk.declare cond) fun reg e₁ bound isBound => ?_
  refine Proceeds.bind (em.proceeds_addDeclaration hb bound.tracks typeSeat reg)
    fun _ e₂ hd _ => ?_
  have ready : o.Computable w (ren v) e₂ :=
    valueSeat.computable hb hd.tracks (hd.covers (bound.covers
      (em.covers_shown hb covers valueSeat (shows_nothing isDecl fun _ => rfl) fun _ mem => by simp at mem)))
  refine Proceeds.bind_within (emits.expr (by omega) ready) (fun _ hm => hm.within
    (Effect.expr_within fun x under => hi x (valueSeat.under.trans under))) ?_
  intro source e₃ computed _
  refine Proceeds.bind (computed.tracks.addPlain rfl rfl) fun _ e₄ moved _ => ?_
  have registered : o.Registered e₄ [cond] := by
    intro decl mem _ _ _
    obtain rfl := List.mem_singleton.mp mem
    exact moved.locals _ (computed.locals _ (hd.locals _ isBound.1))
  have finish : ∀ {e₅}, o.Moves w (.tests o.tree [cond] tgt) e₄ e₅ →
      Proceeds (o.Moves w (.tests o.tree [cond] tgt)) (EmitM.setStage cond .emitted) e₅
        fun _ e' => o.Registered e' [cond] := by
    intro e₅ hm
    exact (hm.tracks.setStage (hi cond .root)).answering
      fun _ _ hs _ => hs.registered (hm.registered registered)
  cases out with
  | true =>
    refine Proceeds.bind moved.tracks.newHelper fun skip e₅ hn helper => ?_
    refine Proceeds.bind (hn.tracks.add (fun l aimed => ?_) False.elim) fun _ e₆ tested _ => ?_
    · cases aimed
      exact .inl helper
    refine Proceeds.bind (tested.tracks.addJump rfl fun flows => flows) fun _ e₇ jumped _ => ?_
    refine Proceeds.bind (jumped.tracks.placeJoin skip) fun _ e₈ hp _ => ?_
    exact finish (((hn.trans tested).trans jumped).trans hp)
  | false =>
    refine Proceeds.bind (moved.tracks.add (fun l aimed => ?_) False.elim) fun _ e₅ tested _ => ?_
    · cases aimed
      exact .inr rfl
    exact finish tested

/-- A condition is emitted if it finds registers for the locals that it refers to. -/
theorem cond {own cond : NodeId} {tgt : Label} (out : Bool) (hb : o.tree.Below o.root own)
    (seat : o.Seat own .condition cond node)
    (listed : w.tree.allowsShortCircuit own node = true) (small : own.index ≤ limit)
    (trk : o.Tracks w e) (covers : o.Covers e node) :
    Proceeds (o.Moves w (.tests o.tree [cond] tgt)) (emitter.cond own node out tgt) e
      fun _ e' => o.Registered e' [cond] := by
  have lower := seat.index_lt em.linked hb
  have allowed : e.work.tree.allowsShortCircuit own node = true := by
    simpa only [Tree.allowsShortCircuit, trk.stmt?] using listed
  refine Proceeds.bind_read rfl ?_
  simp only [allowed, ↓reduceIte, trk.stmt?]
  rcases seat.condition with ⟨isExpr, noStmt⟩ | ⟨rfl, ty, name, v, isDecl⟩
  · have hp : w.tree.stmt? node = none := by
      obtain ⟨ren, he, -⟩ := em.settled.peels.stmt?_eq node
      rw [he, seat.strips.stmt?_eq_none noStmt, Option.map_none]
    rw [hp]
    have ready : o.Computable w node e :=
      ⟨hb.trans seat.under, isExpr, seat.plain, trk, covers⟩
    refine (emits.branch (by omega) ready).mono (fun _ hm => hm.within ?_) ?_
    · refine Effect.tests_within (fun x mem hf under => ?_) (.inr rfl) fun flows => flows
      obtain rfl := List.mem_singleton.mp mem
      exact ⟨cond, List.mem_singleton_self cond, (seat.strips.isBelow .root).trans under⟩
    · intro _ _ _ _ decl mem stmt hs
      obtain rfl := List.mem_singleton.mp mem
      simp [noStmt] at hs
  · have belowCond := hb.child seat.member
    obtain ⟨ren, renamed, seats⟩ := em.stmt_seats belowCond isDecl
    rw [renamed]
    exact emits.condDecl em out isDecl belowCond (by omega) trk covers seats

end Emits

variable (o w) in
/-- The conditions of a statement. Each sees what is given and what the conditions before it
declare. -/
structure Conds (own : NodeId) (given conds : List NodeId) (ren : NodeId → NodeId) : Prop where
  below : o.tree.Below o.root own
  seats : ∀ cond ∈ conds, o.Seat own .condition cond (ren cond)
  listed : ∀ cond ∈ conds, w.tree.allowsShortCircuit own (ren cond) = true
  shows : ∀ done cond rest, conds = done ++ cond :: rest → o.Shows own cond (given ++ done)

theorem registered_nil : o.Registered e [] := fun _ mem => by simp at mem

theorem Registered.append {fst snd : List NodeId} (left : o.Registered e fst)
    (right : o.Registered e snd) : o.Registered e (fst ++ snd) := by
  intro decl mem
  rcases List.mem_append.mp mem with here | there
  · exact left decl here
  · exact right decl there

namespace Conds

variable {emitter : Emitter} {own cond : NodeId} {given conds done todo : List NodeId}
  {ren : NodeId → NodeId} {tgt : Label} (isConds : o.Conds w own given conds ren)
  (em : o.Emittable w) (emits : o.Emits w limit emitter) (small : own.index ≤ limit)

include isConds em emits small

theorem emitNext (out : Bool) (split : conds = done ++ cond :: todo) (trk : o.Tracks w e)
    (covers : o.Covers e own) (registered : o.Registered e (given ++ done)) :
    Proceeds (o.Moves w (.tests o.tree conds tgt))
      (emitter.cond own (ren cond) out tgt) e fun _ e' =>
        o.Registered e' (given ++ (done ++ [cond])) := by
  have mem : cond ∈ conds := by simp [split]
  have seat := isConds.seats cond mem
  have hv : o.Covers e (ren cond) :=
    em.covers_shown isConds.below covers seat (isConds.shows done cond todo split) registered
  refine (emits.cond em out isConds.below seat (isConds.listed cond mem) small trk
    hv).mono (fun _ hm => hm.within ?_) fun _ e' hm new => ?_
  · refine Effect.tests_within (fun node hi x hb => ?_) (.inr rfl) fun flows => flows
    obtain rfl := List.mem_singleton.mp hi
    exact ⟨node, mem, hb⟩
  · rw [← List.append_assoc]
    exact (hm.registered registered).append new

theorem condsOrJump (split : conds = done ++ todo) (trk : o.Tracks w e)
    (covers : o.Covers e own) (registered : o.Registered e (given ++ done)) :
    Proceeds (o.Moves w (.tests o.tree conds tgt))
      (emitter.condsOrJump own tgt (todo.map ren)) e fun _ e' =>
        e'.code.reachable = true → o.Registered e' (given ++ conds) := by
  induction todo generalizing done e with
  | nil =>
    refine Proceeds.pure (.refl trk _) fun _ => ?_
    rw [split, List.append_nil]
    exact registered
  | cons cond todo ih =>
    refine Proceeds.bind_read rfl ?_
    cases hr : e.code.reachable with
    | false => exact Proceeds.pure (.refl trk _) (by simp [hr])
    | true =>
      refine Proceeds.bind (isConds.emitNext em emits small false split trk covers registered) ?_
      intro _ e₁ hm registered
      exact ih (by rw [split, List.append_assoc, List.singleton_append]) hm.tracks
        (hm.covers covers) registered

theorem leadingConds (split : conds = done ++ (todo ++ rest)) (trk : o.Tracks w e)
    (covers : o.Covers e own) (registered : o.Registered e (given ++ done)) :
    Proceeds (o.Moves w (.tests o.tree conds tgt))
      (emitter.leadingConds own tgt (todo.map ren)) e fun _ e' =>
        o.Registered e' (given ++ (done ++ todo)) := by
  induction todo generalizing done e with
  | nil =>
    refine Proceeds.pure (.refl trk _) ?_
    rw [List.append_nil]
    exact registered
  | cons cond todo ih =>
    refine Proceeds.bind (isConds.emitNext em emits small false split trk covers registered) ?_
    intro _ e₁ hm registered
    refine (ih (by rw [split, List.append_assoc]; rfl) hm.tracks (hm.covers covers)
      registered).answering fun _ _ _ registered => ?_
    rwa [List.append_assoc, List.singleton_append] at registered

theorem condsThenJump (trk : o.Tracks w e) (covers : o.Covers e own)
    (registered : o.Registered e given) : Proceeds (o.Moves w (.tests o.tree conds tgt))
      (emitter.condsThenJump own (conds.map ren) tgt) e fun _ _ => True := by
  rw [← List.append_nil given] at registered
  rcases List.eq_nil_or_concat conds with rfl | ⟨leading, last, split⟩
  · exact trk.addJump rfl fun flows => flows
  rw [List.concat_eq_append] at split
  unfold Emitter.condsThenJump
  simp only [split, List.map_append, List.map_cons, List.map_nil, List.getLast?_concat, List.dropLast_concat]
  rw [← split]
  cases leading with
  | nil =>
    exact (isConds.emitNext em emits small true split trk covers registered).answering
      fun _ _ _ _ => trivial
  | cons fst leading =>
    refine Proceeds.bind trk.newHelper fun skip e₁ hn helper => ?_
    have win : (Effect.tests o.tree conds skip).Within (.tests o.tree conds tgt) :=
      Effect.tests_within (fun id mem x hb => ⟨id, mem, hb⟩) (.inl helper) fun flows => flows
    refine Proceeds.bind_within (isConds.leadingConds em emits small split
      hn.tracks (hn.covers covers) (hn.registered registered))
      (fun _ hm => hm.within win) fun _ e₂ led registered => ?_
    refine Proceeds.bind (isConds.emitNext em emits small true split led.tracks
      (led.covers (hn.covers covers)) registered) fun _ e₃ tested _ => ?_
    exact (tested.tracks.placeJoin skip).answering fun _ _ _ _ => trivial

end Conds

/-! ### Sequences -/

theorem declaredBefore_split {tree : Tree} {done : List NodeId} {decl : NodeId}
    (hd : (done ++ c :: rest).Nodup)
    (hf : tree.declaredBefore name c (done ++ c :: rest) = some decl) :
    decl ∈ done ∧ tree.declaresLocal name decl = true := by
  obtain ⟨mem, dcl⟩ := Tree.declaredBefore_eq_some hf
  have b : ∀ node ∈ done, decide (node ≠ c) = true := by
    intro node hi
    rw [decide_eq_true_eq]
    rintro rfl
    exact (List.nodup_append.mp hd).2.2 node hi node List.mem_cons_self rfl
  rw [List.takeWhile_append_of_pos b] at mem
  simpa [dcl] using mem

theorem declaredBefore_all {tree : Tree} {ids : List NodeId} {decl : NodeId}
    (hf : tree.declaredBefore name c ids = some decl) :
    decl ∈ ids ∧ tree.declaresLocal name decl = true := by
  obtain ⟨mem, dcl⟩ := Tree.declaredBefore_eq_some hf
  exact ⟨List.takeWhile_subset _ mem, dcl⟩

/-- What comes after a statement is shown that statement too. -/
theorem shows_after {done todo : List NodeId} {stmt : NodeId}
    (shows : ∀ b x t, stmt :: todo = b ++ x :: t → o.Shows id x (done ++ b)) (b : List NodeId)
    (x : NodeId)
    (t : List NodeId) (split : todo = b ++ x :: t) : o.Shows id x (done ++ [stmt] ++ b) := by
  rw [List.append_assoc]
  exact shows (stmt :: b) x t (by rw [split]; rfl)

namespace Emits

variable {emitter : Emitter} (em : o.Emittable w) (emits : o.Emits w limit emitter)

include em emits

/-- Statements in order. One that control does not reach is skipped, and so are all behind it. -/
theorem sequence {done todo : List NodeId} (warn : Bool) (small : id.index ≤ limit)
    (ho : o.Open w id sc todo e) (seats : ∀ stmt ∈ todo, o.Seat id .statement stmt stmt)
    (shows : ∀ b stmt t, todo = b ++ stmt :: t → o.Shows id stmt (done ++ b))
    (registered : e.code.reachable = true → o.Registered e done) :
    Proceeds (o.Moves w (.stmt o.tree id)) (emitter.sequence warn todo) e fun _ e' =>
      o.Open w id sc [] e' := by
  induction todo generalizing done warn e with
  | nil => exact Proceeds.pure (.refl ho.tracks _) ho
  | cons stmt todo ih =>
    have seat := seats stmt List.mem_cons_self
    have seats : ∀ x ∈ todo, o.Seat id .statement x x :=
      fun x mem => seats x (List.mem_cons_of_mem stmt mem)
    have hf := shows_after shows
    refine Proceeds.bind_read rfl ?_
    cases hr : e.code.reachable with
    | true =>
      have covers : o.Covers e stmt :=
        em.covers_shown ho.below ho.covers seat (shows [] stmt todo rfl)
          (by simpa using registered hr)
      refine ho.bindStmt em emits small (effect_within_stmt seat.member)
        (seat.stmt (by decide)).2 (fun _ => covers) ?_
      intro e₁ ho hm sends
      exact ih warn ho seats hf
        fun _ => (hm.registered (registered hr)).append (sends.registered hr)
    | false =>
      have skip : ∀ {e₁} warn, o.Open w id sc (stmt :: todo) e₁ → e₁.code = e.code →
          Proceeds (o.Moves w (.stmt o.tree id)) (emitter.sequence warn todo) e₁ fun _ e' =>
            o.Open w id sc [] e' := by
        intro e₁ warn ho eq
        refine ih warn (ho.mono (List.sublist_cons_self stmt todo)) seats hf fun reachable => ?_
        rw [eq, hr] at reachable
        simp at reachable
      refine ho.bindCode (ho.tracks.setReachable stmt false) fun _ e₁ ho _ eq => ?_
      refine Proceeds.bind_read rfl ?_
      dsimp only
      split
      · refine ho.bindCode (ho.tracks.report _) fun _ e₂ ho _ still => ?_
        exact skip _ ho (still.trans eq)
      · exact skip _ ho eq

/-- Statements that only compute something, whether control reaches them or not. -/
theorem each {done todo ps : List NodeId} (small : id.index ≤ limit)
    (ho : o.Open w id sc (todo ++ rest) e) (hi : todo ⊆ ps)
    (seats : ∀ stmt ∈ todo, o.Seat id .simple stmt stmt)
    (shows : ∀ b stmt t, todo = b ++ stmt :: t → o.Shows id stmt (done ++ b))
    (registered : e.code.reachable = true → o.Registered e done) :
    Proceeds (o.Moves w (.exprs o.tree ps)) (emitter.each todo) e fun _ e' =>
      o.Open w id sc rest e' ∧ (e.code.reachable = true → o.Registered e' (done ++ todo)) := by
  induction todo generalizing done e with
  | nil => exact Proceeds.pure (.refl ho.tracks _) ⟨ho, by simpa using registered⟩
  | cons stmt todo ih =>
    have seat := seats stmt List.mem_cons_self
    have seats : ∀ x ∈ todo, o.Seat id .simple x x :=
      fun x mem => seats x (List.mem_cons_of_mem stmt mem)
    have hfu := shows_after shows
    obtain ⟨-, form, hf, isSimple⟩ := seat.stmt (by decide)
    have simple : o.Simple stmt := ⟨form, hf, isSimple⟩
    have win : (o.effect stmt).Within (.exprs o.tree ps) :=
      ⟨fun x hb => ⟨stmt, hi List.mem_cons_self, hb⟩, fun _ _ aimed => absurd simple aimed, fun _ => simple⟩
    refine ho.bindStmt em emits small win
      ⟨form, hf, Stmt.isExecutable_of_isSimple isSimple⟩ (fun hr => ?_) ?_
    · exact em.covers_shown ho.below ho.covers seat (shows [] stmt todo rfl)
        (by simpa using registered hr)
    · intro e₁ ho hm sends
      have next : e.code.reachable = true → o.Registered e₁ (done ++ [stmt]) := fun hr =>
        (hm.registered (registered hr)).append (sends.registered hr)
      have b : e₁.code.reachable = true → e.code.reachable = true := by
        intro hr
        by_contra stopped
        rw [sends.skipped (by simpa using stopped)] at hr
        exact stopped hr
      refine (ih ho (fun _ mem => hi (List.mem_cons_of_mem stmt mem)) seats hfu
        fun hr => next (b hr)).answering ?_
      rintro _ e' later ⟨ho, all⟩
      refine ⟨ho, fun hr => ?_⟩
      have last := all (hm.goes simple hr)
      rwa [List.append_assoc, List.singleton_append] at last

end Emits

end Outset

end TreeCompiler
