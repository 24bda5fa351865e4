import TreeCompiler.Proofs.EmittableUnits

/-!
# Progress of emission

A step of emission goes on if it ends well or stops on an error of code. What a step may do is
bounded by its effect: the nodes it marks, the statements it jumps to, and whether control goes on
behind it. Beyond that it leaves everything that validation noted, and locals keep their registers.
-/

namespace TreeCompiler

open Step

/-- A step that ends well, related to where it began and with a property, or stops on an error of
code. -/
def Step.Proceeds {σ α : Type} (R : σ → σ → Prop) (m : EStateM Defect σ α) (s : σ)
    (post : α → σ → Prop) : Prop :=
  match m s with
  | .ok a s' => R s s' ∧ post a s'
  | .error defect _ => ∃ error, defect = .code error

namespace Step.Proceeds

variable {σ α β : Type} {R Q : σ → σ → Prop} {m : EStateM Defect σ α} {f : α → EStateM Defect σ β}
  {s s' : σ} {a : α} {post mid : α → σ → Prop} {last : β → σ → Prop}

theorem of_ok (ran : m s = .ok a s') (related : R s s') (h : post a s') : Proceeds R m s post := by
  unfold Proceeds
  rw [ran]
  exact ⟨related, h⟩

theorem pure (related : R s s) (h : post a s) : Proceeds R (Pure.pure a) s post := ⟨related, h⟩

/-- A first step whose relation is a narrower one. -/
theorem bind_within [IsTrans σ R] (fst : Proceeds Q m s mid) (sub : ∀ s', Q s s' → R s s')
    (rest : ∀ a s', Q s s' → mid a s' → Proceeds R (f a) s' last) :
    Proceeds R (m >>= f) s last := by
  unfold Proceeds at fst rest ⊢
  simp only [Bind.bind, EStateM.bind]
  cases ran : m s with
  | ok a s' =>
    rw [ran] at fst
    obtain ⟨related, h⟩ := fst
    have next := rest a s' related h
    cases goesOn : f a s' with
    | ok b s'' =>
      simp only [goesOn] at next ⊢
      exact ⟨IsTrans.trans _ _ _ (sub s' related) next.1, next.2⟩
    | error defect s'' =>
      simp only [goesOn] at next ⊢
      exact next
  | error defect s' =>
    rw [ran] at fst
    exact fst

theorem bind [IsTrans σ R] (fst : Proceeds R m s mid)
    (rest : ∀ a s', R s s' → mid a s' → Proceeds R (f a) s' last) : Proceeds R (m >>= f) s last :=
  bind_within fst (fun _ related => related) rest

/-- A first step that only looks at the state. -/
theorem bind_read (ran : m s = .ok a s) (rest : Proceeds R (f a) s last) :
    Proceeds R (m >>= f) s last := by
  unfold Proceeds at rest ⊢
  simp only [Bind.bind, EStateM.bind, ran]
  exact rest

theorem mono (proceeds : Proceeds Q m s mid) (sub : ∀ s', Q s s' → R s s')
    (weaker : ∀ a s', Q s s' → mid a s' → post a s') : Proceeds R m s post := by
  unfold Proceeds at proceeds ⊢
  cases ran : m s with
  | ok a s' =>
    rw [ran] at proceeds
    exact ⟨sub s' proceeds.1, weaker a s' proceeds.1 proceeds.2⟩
  | error defect s' =>
    rw [ran] at proceeds
    exact proceeds

theorem answering (proceeds : Proceeds R m s mid) (weaker : ∀ a s', R s s' → mid a s' → post a s') :
    Proceeds R m s post :=
  proceeds.mono (fun _ related => related) weaker

/-- A step that goes on and never stops on an error of code ends well. -/
theorem exists_ok (proceeds : Proceeds R m s post) (safe : Safe m s mid) :
    ∃ a s', m s = .ok a s' ∧ R s s' ∧ post a s' ∧ mid a s' := by
  unfold Proceeds at proceeds
  unfold Safe at safe
  cases ran : m s with
  | ok a s' =>
    rw [ran] at proceeds safe
    exact ⟨a, s', rfl, proceeds.1, proceeds.2, safe⟩
  | error defect s' =>
    rw [ran] at proceeds safe
    obtain ⟨error, isCode⟩ := proceeds
    exact absurd isCode (safe error)

end Step.Proceeds

namespace Buffer

variable {buf : Buffer} {op : Op} {l : Label}

theorem isReferenced_add (referenced : (buf.add op).isReferenced l = true) :
    buf.isReferenced l = true ∨ op.target? = some l := by
  unfold Buffer.add at referenced
  split at referenced
  · simpa [isReferenced] using referenced
  · exact .inl referenced

theorem reachable_add (goes : op.isTerminal = false) : (buf.add op).reachable = buf.reachable := by
  unfold Buffer.add
  split
  · simp_all
  · rfl

theorem reachable_joined (hr : (buf.joined l).reachable = true) :
    buf.reachable = true ∨ buf.isReferenced l = true := by
  simpa [joined] using hr

end Buffer

/-- What a part of emission may do: the nodes it marks, the labels of statements that it jumps to,
and whether control goes on behind it. -/
structure Effect where
  region : NodeId → Prop
  aims : Label → Prop
  flows : Prop

namespace Effect

/-- One effect is bounded by another. -/
structure Within (i outer : Effect) : Prop where
  region : ∀ id, i.region id → outer.region id
  aims : ∀ l, l.kind.isHelper = false → i.aims l → outer.aims l
  flows : outer.flows → i.flows

/-- Emission of an expression jumps inside its own code only, and control goes on. -/
def expr (tree : Tree) (id : NodeId) : Effect := ⟨tree.Below id, fun _ => False, True⟩

/-- Emission of tests jumps to one label beside. -/
def tests (tree : Tree) (ids : List NodeId) (tgt : Label) : Effect :=
  ⟨fun x => ∃ id ∈ ids, tree.Below id x, (· = tgt), False⟩

/-- Emission of a statement may do everything with the nodes under it. -/
def stmt (tree : Tree) (id : NodeId) : Effect := ⟨tree.Below id, fun _ => True, False⟩

end Effect

namespace Outset

open Emission EmitM

variable (o : Outset) (w : Work)

/-- The state of emission of a valid unit: nothing that validation noted has changed. -/
structure Tracks (e : Emission) : Prop where
  settled : e.work.Settled o.tree o.root
  form : ∀ id, e.work.tree.form? id = w.tree.form? id
  lasting : ∀ id, (e.work.tree.facts id).lasting = (w.tree.facts id).lasting
  pool : e.work.pool = w.pool

/-- What emission with an effect leaves of an earlier state. Jumps to labels of statements are among
the earlier ones or aim where they may. -/
structure Moves (effect : Effect) (b t : Emission) : Prop where
  tracks : o.Tracks w t
  locals : ∀ decl, (b.locals.lookup decl).isSome → (t.locals.lookup decl).isSome
  stage : ∀ x, ¬effect.region x → t.work.tree.stage x = b.work.tree.stage x
  sent : ∀ x, b.work.tree.stage x ≠ .validated → t.work.tree.stage x ≠ .validated
  scopes : ∀ own sc, (b.work.tree.facts own).labelScope = some sc →
    (t.work.tree.facts own).labelScope = some sc
  aims : ∀ l, l.kind.isHelper = false → t.code.isReferenced l = true →
    b.code.isReferenced l = true ∨ effect.aims l
  goes : effect.flows → b.code.reachable = true → t.code.reachable = true

/-- The locals that names under a node refer to outside of it have registers. -/
def Covers (e : Emission) (id : NodeId) : Prop :=
  ∀ use name decl, o.tree.Below id use → o.tree.expr? use = some (.name name) →
    o.tree.localOf use name = some decl → o.tree.findLocal id name = some decl →
    (e.locals.lookup decl).isSome

variable {o w} {effect i : Effect} {b middle e e' t : Emission} {id : NodeId}

namespace Tracks

variable (trk : o.Tracks w e)

include trk

theorem stmt? (id : NodeId) : e.work.tree.stmt? id = w.tree.stmt? id := by
  simp only [Tree.stmt?, trk.form]

theorem expr? (id : NodeId) : e.work.tree.expr? id = w.tree.expr? id := by
  simp only [Tree.expr?, trk.form]

theorem fact {β : Type} (view : Facts → β)
    (lasts : ∀ facts : Facts, view facts.lasting = view facts)
    (id : NodeId) : view (e.work.tree.facts id) = view (w.tree.facts id) := by
  rw [← lasts, trk.lasting, lasts]

theorem constant (id : NodeId) : (e.work.tree.facts id).constant = (w.tree.facts id).constant :=
  trk.fact Facts.constant (fun _ => rfl) id

theorem withCode (code : Buffer) : o.Tracks w (e.withCode code) :=
  ⟨trk.settled, trk.form, trk.lasting, trk.pool⟩

theorem modifyFacts (id : NodeId) {g : Facts → Facts}
    (lasting : ∀ facts : Facts, (g facts).lasting = facts.lasting)
    (sc : ∀ facts : Facts, (g facts).labelScope = facts.labelScope) :
    o.Tracks w (e.withTree (e.work.tree.modifyFacts id g)) := by
  have eq : ∀ {β : Type} (view : Facts → β), (∀ facts : Facts, view facts.lasting = view facts) →
      ∀ facts : Facts, view (g facts) = view facts := by
    intro β view blind facts
    rw [← blind, lasting, blind]
  refine ⟨?_, fun x => ?_, fun x => ?_, trk.pool⟩
  · refine trk.settled.noted id (fun facts => ⟨eq Facts.jump (fun _ => rfl) facts, sc facts,
      eq Facts.breakUsed (fun _ => rfl) facts⟩) fun facts some => .inl ?_
    rwa [← eq Facts.constant (fun _ => rfl) facts]
  · rw [← trk.form x]
    exact e.work.tree.form?_modify id x g
  · rw [← trk.lasting x]
    exact e.work.tree.facts_modify_of Facts.lasting lasting id x

theorem withScope {own : NodeId} (hi : e.work.tree.Has own) : o.Tracks w (e.withScope own) where
  settled := trk.settled.withScope hi
  form x := by
    rw [← trk.form x]
    exact Work.form?_withScope own x
  lasting x := by
    rw [← trk.lasting x]
    exact e.work.facts_withScope_of Facts.lasting (fun _ _ => rfl) own x
  pool := trk.pool

end Tracks

namespace Moves

theorem refl (trk : o.Tracks w e) (effect : Effect) : o.Moves w effect e e :=
  ⟨trk, fun _ some => some, fun _ _ => rfl, fun _ sent => sent, fun _ _ taken => taken,
    fun _ _ referenced => .inl referenced, fun _ hr => hr⟩

theorem trans (he : o.Moves w effect b middle)
    (later : o.Moves w effect middle t) : o.Moves w effect b t where
  tracks := later.tracks
  locals decl some := later.locals decl (he.locals decl some)
  stage x out := (later.stage x out).trans (he.stage x out)
  sent x sent := later.sent x (he.sent x sent)
  scopes own sc taken := later.scopes own sc (he.scopes own sc taken)
  aims l hp referenced :=
    (later.aims l hp referenced).elim (he.aims l hp) .inr
  goes flows hr := later.goes flows (he.goes flows hr)

instance : IsTrans Emission (o.Moves w effect) := ⟨fun _ _ _ => trans⟩

theorem within (hm : o.Moves w i b t) (win : i.Within effect) : o.Moves w effect b t :=
  { hm with
    stage := fun x out => hm.stage x fun hi => out (win.region x hi)
    aims := fun l hp referenced =>
      (hm.aims l hp referenced).imp_right (win.aims l hp)
    goes := fun flows => hm.goes (win.flows flows) }

/-- Locals keep their registers. -/
theorem covers (hm : o.Moves w effect b t) (covers : o.Covers b id) :
    o.Covers t id := fun use name decl under isName refers hv =>
  hm.locals decl (covers use name decl under isName refers hv)

theorem ofCode (trk : o.Tracks w e) {code : Buffer}
    (aims : ∀ l, l.kind.isHelper = false → code.isReferenced l = true →
      e.code.isReferenced l = true ∨ effect.aims l)
    (goes : effect.flows → e.code.reachable = true → code.reachable = true) :
    o.Moves w effect e (e.withCode code) where
  tracks := trk.withCode code
  locals _ some := some
  stage _ _ := rfl
  sent _ sent := sent
  scopes _ _ taken := taken
  aims := aims
  goes := goes

theorem ofNote (trk : o.Tracks w e) (id : NodeId) {g : Facts → Facts}
    (lasting : ∀ facts : Facts, (g facts).lasting = facts.lasting)
    (sc : ∀ facts : Facts, (g facts).labelScope = facts.labelScope)
    (stage : ∀ facts : Facts, (g facts).stage = facts.stage ∨
      (effect.region id ∧ (g facts).stage = .emitted)) :
    o.Moves w effect e (e.withTree (e.work.tree.modifyFacts id g)) := by
  have hs : ∀ node, (e.work.tree.modifyFacts id g).stage node = e.work.tree.stage node ∨
      (effect.region node ∧ (e.work.tree.modifyFacts id g).stage node = .emitted) := by
    intro node
    unfold Tree.stage
    rcases e.work.tree.facts_modify_cases id node g with he | ⟨rfl, he⟩
    · exact .inl (congrArg Facts.stage he)
    · rw [he]
      exact stage _
  refine ⟨trk.modifyFacts id lasting sc, fun _ some => some, fun node out => ?_,
    fun node sent => ?_, fun own _ taken => ?_, fun _ _ referenced => .inl referenced,
    fun _ hr => hr⟩
  · exact (hs node).resolve_right fun hi => out hi.1
  · rcases hs node with eq | ⟨-, emitted⟩
    · exact fun valid => sent (eq.symm.trans valid)
    · exact fun valid => absurd (emitted.symm.trans valid) (by simp)
  · rw [← taken]
    exact e.work.tree.facts_modify_of Facts.labelScope sc id own

/-- A label scope for a node. -/
theorem ofScope (trk : o.Tracks w e) (hi : e.work.tree.Has id) :
    o.Moves w effect e (e.withScope id) where
  tracks := trk.withScope hi
  locals _ some := some
  stage x _ := e.work.facts_withScope_of Facts.stage (fun _ _ => rfl) id x
  sent x sent := by
    have eq : (e.withScope id).work.tree.stage x = e.work.tree.stage x :=
      e.work.facts_withScope_of Facts.stage (fun _ _ => rfl) id x
    rwa [eq]
  scopes _ _ taken := Work.labelScope_withScope_of_some taken
  aims _ _ referenced := .inl referenced
  goes _ hr := hr

theorem ofReport (trk : o.Tracks w e) (diag : Diagnostic) :
    o.Moves w effect e (e.reported diag) where
  tracks :=
    { settled := trk.settled.congr trk.settled.peels rfl fun _ => rfl
      form := trk.form
      lasting := trk.lasting
      pool := trk.pool }
  locals _ some := some
  stage _ _ := rfl
  sent _ sent := sent
  scopes _ _ taken := taken
  aims _ _ referenced := .inl referenced
  goes _ hr := hr

end Moves

/-! ### Basic steps -/

namespace Tracks

variable (trk : o.Tracks w e)

include trk

theorem setStage (hi : effect.region id) :
    Proceeds (o.Moves w effect) (EmitM.setStage id .emitted) e fun _ e' =>
      e' = e.withTree (e.work.tree.setStage id .emitted) :=
  Proceeds.of_ok (a := ()) (setStage_ok.mpr rfl)
    (.ofNote trk id (fun _ => rfl) (fun _ => rfl) fun _ => .inr ⟨hi, rfl⟩) rfl

theorem setReachable (id : NodeId) (reachable : Bool) :
    Proceeds (o.Moves w effect) (EmitM.setReachable id reachable) e fun _ e' => e'.code = e.code :=
  Proceeds.of_ok (a := ()) (setReachable_ok.mpr rfl)
    (.ofNote trk id (fun _ => rfl) (fun _ => rfl) fun _ => .inl rfl) rfl

theorem report (diag : Diagnostic) : Proceeds (o.Moves w effect) (EmitM.onWork (.report diag)) e
    fun _ e' =>
      e'.code = e.code :=
  Proceeds.of_ok (a := ()) (report_ok.mpr rfl) (.ofReport trk diag) rfl

theorem add {op : Op} (aims : ∀ l, op.target? = some l → l.kind.isHelper = true ∨ effect.aims l)
    (flows : effect.flows → op.isTerminal = false) :
    Proceeds (o.Moves w effect) (EmitM.add op) e fun _ e' =>
      op.isTerminal = false → e'.code.reachable = e.code.reachable := by
  refine Proceeds.of_ok (a := ()) (add_ok.mpr rfl) (.ofCode trk ?_ ?_)
    fun goes => Buffer.reachable_add goes
  · intro l hp referenced
    rcases Buffer.isReferenced_add referenced with b | aimed
    · exact .inl b
    · rcases aims l aimed with helper | aimed
      · simp [hp] at helper
      · exact .inr aimed
  · intro flow hr
    rw [Buffer.reachable_add (flows flow)]
    exact hr

/-- An instruction that goes on and jumps nowhere. -/
theorem addPlain {op : Op} (hp : op.target? = none) (goes : op.isTerminal = false) :
    Proceeds (o.Moves w effect) (EmitM.add op) e fun _ e' => e'.code.reachable = e.code.reachable :=
  (trk.add (by simp [hp]) fun _ => goes).answering fun _ _ _ eq => eq goes

theorem addIf {cond : Bool} {op : Op} (hp : op.target? = none) (goes : op.isTerminal = false) :
    Proceeds (o.Moves w effect) (EmitM.addIf cond op) e fun _ e' =>
      e'.code.reachable = e.code.reachable := by
  cases cond with
  | true => exact trk.addPlain hp goes
  | false => exact Proceeds.pure (.refl trk effect) rfl

theorem addJump {tgt : Label} (aims : effect.aims tgt) (stops : ¬effect.flows) :
    Proceeds (o.Moves w effect) (EmitM.add (.jump tgt)) e fun _ _ => True := by
  refine (trk.add (fun l hf => ?_) fun flows => absurd flows stops).answering fun _ _ _ _ => trivial
  cases hf
  exact .inr aims

theorem jumpIfReachable {tgt : Label} (aims : effect.aims tgt) (stops : ¬effect.flows) :
    Proceeds (o.Moves w effect) (EmitM.jumpIfReachable tgt) e fun _ _ => True := by
  refine Proceeds.bind_read rfl ?_
  cases e.code.reachable with
  | true => exact trk.addJump aims stops
  | false => exact Proceeds.pure (.refl trk effect) trivial

theorem newRegister : Proceeds (o.Moves w effect) EmitM.newRegister e fun _ e' =>
      e'.code.reachable = e.code.reachable :=
  Proceeds.of_ok rfl (.ofCode trk (fun _ _ referenced => .inl referenced) fun _ hr => hr) rfl

theorem newHelper :
    Proceeds (o.Moves w effect) EmitM.newHelper e fun l _ => l.kind.isHelper = true :=
  Proceeds.of_ok rfl (.ofCode trk (fun _ _ referenced => .inl referenced) fun _ hr => hr) rfl

/-- A label where control arrives from then on. -/
theorem place (l : Label) :
    Proceeds (o.Moves w effect) (EmitM.place l) e fun _ e' => e'.code.reachable = true := by
  cases free : e.code.offset? l with
  | none =>
    exact Proceeds.of_ok (a := ()) (place_ok.mpr ⟨free, rfl⟩)
      (.ofCode trk (fun _ _ referenced => .inl referenced) fun _ _ => rfl) rfl
  | some offset =>
    unfold Proceeds
    simp [EmitM.place, EmitM.tryCode, EmitM.onCode, Buffer.place, Buffer.bindThen, free, bind,
      EStateM.bind, modifyGet, MonadStateOf.modifyGet, EStateM.modifyGet, throw, throwThe,
      MonadExceptOf.throw, EStateM.throw]

/-- A label where control arrives if it did before or a jump goes there. -/
theorem placeJoin (l : Label) : Proceeds (o.Moves w effect) (EmitM.placeJoin l) e fun _ e' =>
      e'.code.reachable = true → e.code.reachable = true ∨ e.code.isReferenced l = true := by
  cases free : e.code.offset? l with
  | none =>
    refine Proceeds.of_ok (a := ()) (placeJoin_ok.mpr ⟨free, rfl⟩)
      (.ofCode trk (fun _ _ referenced => .inl referenced) fun _ hr => ?_)
      Buffer.reachable_joined
    simp [Buffer.joined, hr]
  | some offset =>
    unfold Proceeds
    simp [EmitM.placeJoin, EmitM.tryCode, EmitM.onCode, Buffer.placeJoin, Buffer.bindThen, free, bind,
      EStateM.bind, modifyGet, MonadStateOf.modifyGet, EStateM.modifyGet, throw, throwThe,
      MonadExceptOf.throw, EStateM.throw]

theorem label (hi : e.work.tree.Has id) (kind : LabelKind) :
    Proceeds (o.Moves w effect) (EmitM.label id kind) e fun l e' =>
      l.kind = kind ∧ (e'.work.tree.facts id).labelScope = some l.scope ∧ e'.code = e.code :=
  Proceeds.of_ok rfl (.ofScope trk hi) ⟨rfl, Work.labelScope_withScope_self hi, rfl⟩

theorem bindRegister (decl : NodeId) : Proceeds (o.Moves w effect) (EmitM.bindRegister decl) e
    fun _ e' =>
      (e'.locals.lookup decl).isSome ∧ e'.code.reachable = e.code.reachable := by
  refine Proceeds.of_ok (bindRegister_ok.mpr ⟨rfl, rfl⟩) ?_ ⟨?_, rfl⟩
  · refine ⟨⟨trk.settled, trk.form, trk.lasting, trk.pool⟩, fun x some => ?_,
      fun _ _ => rfl, fun _ sent => sent, fun _ _ taken => taken, fun _ _ referenced => .inl referenced,
      fun _ hr => hr⟩
    simp only [Emission.bound, List.lookup_cons]
    split
    · rfl
    · exact some
  · simp [Emission.bound]

theorem declare (decl : NodeId) : Proceeds (o.Moves w effect) (EmitM.declare decl) e fun _ e' =>
      (e'.locals.lookup decl).isSome ∧ e'.code.reachable = e.code.reachable := by
  refine Proceeds.bind_read (register?_ok.mpr ⟨rfl, rfl⟩) ?_
  cases hf : e.locals.lookup decl with
  | some reg => exact Proceeds.pure (.refl trk effect) ⟨by simp [hf], rfl⟩
  | none => exact trk.bindRegister decl

end Tracks

end Outset

end TreeCompiler
