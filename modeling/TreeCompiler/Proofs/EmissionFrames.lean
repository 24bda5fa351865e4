import TreeCompiler.Proofs.ClosedEnds
import TreeCompiler.Proofs.ValidatedTrees

/-!
# Frames of emission

What holds while a statement is emitted: which labels are open, which statements around it are being
emitted, which label scopes those have. Code keeps its rules as long as every step of emission fits
into the frame it is made in.
-/

namespace TreeCompiler

variable {busy : List NodeId} {l : Label} {own id : NodeId} {sc : UInt32} {level : Nat}

/-- What is known about a tree before its methods are emitted. -/
structure Plan where
  start : Tree
  root : NodeId
  /-- Whether a break leaves the statement. -/
  broken : NodeId → Bool
  linked : start.IsLinked root

/-- Where a piece of code is emitted. -/
structure Frame where
  /-- The labels that may be jumped to. -/
  ports : Ports
  /-- The statements that are being emitted. -/
  busy : List NodeId
  /-- The label scopes of statements whose labels may be jumped to. -/
  scopes : List (NodeId × UInt32)
  /-- A number of registers that are in use. -/
  floor : Nat

namespace Frame

/-- The frame with a label that will be placed. -/
def opened (fr : Frame) (l : Label) (level : Nat) : Frame :=
  { fr with ports := fr.ports.opened l level }

/-- The frame with a label to jump back to. -/
def headed (fr : Frame) (l : Label) (level : Nat) : Frame :=
  { fr with ports := fr.ports.headed l level }

/-- The frame with one more statement that is being emitted. -/
def busier (fr : Frame) (id : NodeId) : Frame := { fr with busy := id :: fr.busy }

/-- The frame of a statement that owns labels. -/
def claimed (fr : Frame) (id : NodeId) (sc : UInt32) : Frame :=
  { fr with busy := id :: fr.busy, scopes := (id, sc) :: fr.scopes }

/-- The frame with more registers in use. -/
def raised (fr : Frame) (floor : Nat) : Frame := { fr with floor }

end Frame

/-- Whether the label is a helper label. -/
def LabelKind.isHelper : LabelKind → Bool
  | .helper _ => true
  | _ => false

/-- Whether an operand reads registers below a number only. -/
def Operand.Below (arg : Operand) (bound : Nat) : Prop :=
  ∀ reg, arg.register? = some reg → reg.index < bound

theorem Operand.Below.mono {arg : Operand} {bound more : Nat} (hb : arg.Below bound)
    (le : bound ≤ more) : arg.Below more :=
  fun reg reads => Nat.lt_of_lt_of_le (hb reg reads) le

theorem Operand.below_constant (id : ConstId) (bound : Nat) :
    (Operand.constant id).Below bound := by
  intro reg reads
  simp [register?] at reads

theorem Operand.below_register {reg : Register} {bound : Nat} (lt : reg.index < bound) :
    (Operand.register reg).Below bound := by
  intro x reads
  cases reads
  exact lt

theorem Op.registers_below {op : Op} {bound : Nat} (reads : ∀ arg ∈ op.operands, arg.Below bound)
    (writes : ∀ reg, op.written? = some reg → reg.index < bound) :
    ∀ reg ∈ op.registers, reg.index < bound := by
  intro reg mem
  rcases List.mem_append.mp mem with read | written
  · obtain ⟨arg, hi, reading⟩ := List.mem_filterMap.mp read
    exact reads arg hi reg reading
  · exact writes reg (Option.mem_toList.mp written)

namespace Emission

/-- A label that is taken: a helper label that was handed out, or a label of a statement that is
emitted or being emitted. -/
def Takes (busy : List NodeId) (e : Emission) (l : Label) : Prop :=
  match l.kind with
  | .helper i => i < e.code.nextHelper
  | _ => ∃ own, (e.work.tree.facts own).labelScope = some l.scope ∧
    (e.work.tree.stage own = .emitted ∨ own ∈ busy)

/-- The state of emission fits into a frame, with the given number of open scopes. -/
structure Fits (plan : Plan) (fr : Frame) (n : Nat) (e : Emission) : Prop where
  settled : e.work.Settled plan.start plan.root
  waiting : ∀ id, e.work.tree.stage id = .validated → (plan.start.stmt? id).isSome →
    plan.start.Hosts plan.root id
  broken : ∀ id, (e.work.tree.facts id).breakUsed = plan.broken id
  sound : e.code.Sound
  balanced : e.code.Balanced fr.ports n
  past : e.code.Recalls fr.ports e.passed
  taken : ∀ l, e.code.offset? l ≠ none ∨ ¬fr.ports.Lacks l → e.Takes fr.busy l
  owned : ∀ own sc, (own, sc) ∈ fr.scopes → (e.work.tree.facts own).labelScope = some sc
  registers : ∀ op ∈ e.code.ops, ∀ reg ∈ op.registers, reg.index < e.code.nextRegister
  locals : ∀ decl reg, e.locals.lookup decl = some reg → reg.index < e.code.nextRegister
  floor : fr.floor ≤ e.code.nextRegister

/-- A label that never stood at an end of the code that control did not arrive at. -/
def Spares (e : Emission) (l : Label) : Prop :=
  ∀ moment ∈ e.passed, moment.reachable = false → moment.offset? l ≠ some moment.size

theorem takes_iff_of_kind {e : Emission} (kind : l.kind.isHelper = false) :
    e.Takes busy l ↔ ∃ own, (e.work.tree.facts own).labelScope = some l.scope ∧
      (e.work.tree.stage own = .emitted ∨ own ∈ busy) := by
  unfold Takes
  cases x : l.kind <;> simp_all [LabelKind.isHelper]

theorem Takes.mono {more : List NodeId} {e t : Emission}
    (takes : e.Takes busy l) (helpers : e.code.nextHelper ≤ t.code.nextHelper)
    (owners : ∀ own sc, (e.work.tree.facts own).labelScope = some sc →
      e.work.tree.stage own = .emitted ∨ own ∈ busy →
      (t.work.tree.facts own).labelScope = some sc ∧
        (t.work.tree.stage own = .emitted ∨ own ∈ more)) : t.Takes more l := by
  cases kind : l.kind.isHelper with
  | true =>
    unfold Takes at takes ⊢
    cases x : l.kind <;> simp_all [LabelKind.isHelper]
    omega
  | false =>
    rw [takes_iff_of_kind kind] at takes ⊢
    obtain ⟨own, sc, busy⟩ := takes
    exact ⟨own, owners own l.scope sc busy⟩

namespace Fits

variable {plan : Plan} {fr : Frame} {n : Nat} {e : Emission}

/-- Registers that are handed out are in use from then on. -/
theorem raised (fits : e.Fits plan fr n) : e.Fits plan (fr.raised e.code.nextRegister) n :=
  { fits with floor := Nat.le_refl _ }

theorem lowered {floor : Nat} (fits : e.Fits plan (fr.raised floor) n)
    (le : fr.floor ≤ floor) : e.Fits plan fr n :=
  { fits with floor := Nat.le_trans le fits.floor }

/-- Where control does not arrive, the number of open scopes does not matter. -/
theorem anywhere (fits : e.Fits plan fr n) (stopped : e.code.reachable = false) (x : Nat) :
    e.Fits plan fr x :=
  { fits with balanced := fits.balanced.anywhere stopped x }

/-- Notes about a node's stage and whether it is reached. -/
theorem noted (fits : e.Fits plan fr n) (id : NodeId) {f : Facts → Facts}
    (lasting : ∀ facts : Facts, (f facts).lasting = facts.lasting)
    (sc : ∀ facts : Facts, (f facts).labelScope = facts.labelScope)
    (stage : ∀ facts : Facts, (f facts).stage = facts.stage ∨ (f facts).stage = .emitted) :
    (e.withTree (e.work.tree.modifyFacts id f)).Fits plan fr n := by
  have eq : ∀ {β : Type} (view : Facts → β), (∀ facts : Facts, view facts.lasting = view facts) →
      ∀ facts : Facts, view (f facts) = view facts := by
    intro β view blind facts
    rw [← blind, lasting, blind]
  have stages : ∀ x, (e.work.tree.modifyFacts id f).stage x = e.work.tree.stage x ∨
      (e.work.tree.modifyFacts id f).stage x = .emitted := by
    intro x
    rcases e.work.tree.facts_modify_cases id x f with he | ⟨-, he⟩
    · exact .inl (congrArg Facts.stage he)
    · rcases stage (e.work.tree.facts x) with eq | emitted
      · exact .inl ((congrArg Facts.stage he).trans eq)
      · exact .inr ((congrArg Facts.stage he).trans emitted)
  have scopes := e.work.tree.facts_modify_of Facts.labelScope sc id
  have hs : (e.work.withTree (e.work.tree.modifyFacts id f)).Settled plan.start plan.root := by
    refine fits.settled.noted id (fun facts => ⟨eq Facts.jump (fun _ => rfl) facts, sc facts,
      eq Facts.breakUsed (fun _ => rfl) facts⟩) fun facts some => .inl ?_
    rwa [← eq Facts.constant (fun _ => rfl) facts]
  refine ⟨hs, ?_, ?_, fits.sound, fits.balanced, fits.past, ?_, ?_, fits.registers, fits.locals,
    fits.floor⟩
  · intro x hv
    rcases stages x with eq | emitted
    · exact fits.waiting x (eq.symm.trans hv)
    · exact absurd (emitted.symm.trans hv) (by decide)
  · intro x
    rw [← fits.broken x]
    exact e.work.tree.facts_modify_of Facts.breakUsed (eq Facts.breakUsed fun _ => rfl) id x
  · intro l hp
    refine (fits.taken l hp).mono (Nat.le_refl _) fun own hk taken busy => ?_
    refine ⟨(scopes own).trans taken, ?_⟩
    rcases busy with emitted | busy
    · rcases stages own with eq | now
      · exact .inl (eq.trans emitted)
      · exact .inl now
    · exact .inr busy
  · intro own hk mem
    exact (scopes own).trans (fits.owned own hk mem)

theorem reported (fits : e.Fits plan fr n) (diag : Diagnostic) : (e.reported diag).Fits plan fr n :=
  { fits with settled := fits.settled.congr fits.settled.peels rfl fun _ => rfl }

theorem withScope (fits : e.Fits plan fr n) (hi : e.work.tree.Has own) :
    (e.withScope own).Fits plan fr n := by
  have scopes : ∀ {id sc}, (e.work.tree.facts id).labelScope = some sc →
      ((e.withScope own).work.tree.facts id).labelScope = some sc :=
    fun taken => Work.labelScope_withScope_of_some taken
  have stages : ∀ id, (e.withScope own).work.tree.stage id = e.work.tree.stage id :=
    e.work.facts_withScope_of Facts.stage (fun _ _ => rfl) own
  refine ⟨fits.settled.withScope hi, ?_, ?_, fits.sound, fits.balanced, fits.past, ?_, ?_,
    fits.registers, fits.locals, fits.floor⟩
  · intro id
    rw [stages]
    exact fits.waiting id
  · intro id
    rw [← fits.broken id]
    exact e.work.facts_withScope_of Facts.breakUsed (fun _ _ => rfl) own id
  · intro l hp
    refine (fits.taken l hp).mono (Nat.le_refl _) fun id sc taken busy => ⟨scopes taken, ?_⟩
    rwa [stages]
  · intro id sc mem
    exact scopes (fits.owned id sc mem)

theorem labelScope_withScope (hi : e.work.tree.Has own) :
    ((e.withScope own).work.tree.facts own).labelScope =
      some (e.work.tree.labelScope own e.work.labels).1 :=
  Work.labelScope_withScope_self hi

/-- The labels of a statement are free until it is emitted. -/
theorem fresh (fits : e.Fits plan fr n) {kind : LabelKind}
    (taken : (e.work.tree.facts own).labelScope = some sc)
    (stage : e.work.tree.stage own ≠ .emitted) (idle : own ∉ fr.busy)
    (hp : kind.isHelper = false) :
    e.code.offset? ⟨sc, kind⟩ = none ∧ fr.ports.Lacks ⟨sc, kind⟩ := by
  have small : e.work.tree.size ≤ UInt32.size := by
    rw [fits.settled.peels.size]
    exact plan.linked.small
  by_contra used
  have used : e.code.offset? ⟨sc, kind⟩ ≠ none ∨ ¬fr.ports.Lacks ⟨sc, kind⟩ := by
    by_contra none
    rw [not_or, not_not, not_not] at none
    exact used none
  have takes := fits.taken ⟨sc, kind⟩ used
  rw [takes_iff_of_kind hp] at takes
  obtain ⟨x, also, busy⟩ := takes
  obtain rfl := fits.settled.labeled.injective small taken also
  rcases busy with emitted | busy
  · exact stage emitted
  · exact idle busy

theorem busier (fits : e.Fits plan fr n) (id : NodeId) : e.Fits plan (fr.busier id) n := by
  refine { fits with taken := fun l hp => ?_ }
  refine (fits.taken l hp).mono (Nat.le_refl _) fun own sc taken busy => ⟨taken, ?_⟩
  exact busy.imp_right (List.mem_cons_of_mem id)

theorem idle (fits : e.Fits plan (fr.busier id) n)
    (emitted : e.work.tree.stage id = .emitted) : e.Fits plan fr n := by
  refine { fits with taken := fun l hp => ?_ }
  refine (fits.taken l hp).mono (Nat.le_refl _) fun own sc taken busy => ⟨taken, ?_⟩
  rcases busy with done | busy
  · exact .inl done
  · rcases List.mem_cons.mp busy with rfl | busy
    · exact .inl emitted
    · exact .inr busy

theorem claimed (fits : e.Fits plan fr n) (taken : (e.work.tree.facts id).labelScope = some sc) :
    e.Fits plan (fr.claimed id sc) n := by
  refine { fits.busier id with owned := fun own hk mem => ?_ }
  rcases List.mem_cons.mp mem with he | mem
  · obtain ⟨rfl, rfl⟩ := Prod.mk.inj he
    exact taken
  · exact fits.owned own hk mem

theorem released (fits : e.Fits plan (fr.claimed id sc) n) : e.Fits plan (fr.busier id) n :=
  { fits with owned := fun own hk mem =>
      fits.owned own hk (List.mem_cons_of_mem (id, sc) mem) }

/-- A label may be jumped to from now on. -/
theorem opened (fits : e.Fits plan fr n) (level : Nat)
    (unplaced : e.code.offset? l = none) (lacks : fr.ports.Lacks l)
    (takes : e.Takes fr.busy l) : e.Fits plan (fr.opened l level) n := by
  refine { fits with
    balanced := fits.balanced.opened level unplaced lacks
    past := fits.past.opened unplaced level
    taken := fun x hp => ?_ }
  by_cases eq : x = l
  · rw [eq]
    exact takes
  · exact fits.taken x (hp.imp_right (mt (Ports.lacks_opened eq).mpr))

theorem takes_withCode (takes : e.Takes busy l) {code : Buffer}
    (helpers : e.code.nextHelper ≤ code.nextHelper) : (e.withCode code).Takes busy l :=
  takes.mono helpers fun _ _ taken busy => ⟨taken, busy⟩

/-- A label that was open is placed, and no instruction jumps to it any more. -/
theorem joined (fits : e.Fits plan (fr.opened l level) n)
    (lacks : fr.ports.Lacks l) (arrives : e.code.reachable = true → n = level) :
    (e.withCode (e.code.joined l)).Fits plan fr level := by
  refine { fits with
    sound := fits.sound.joined l
    balanced := fits.balanced.joined lacks arrives
    past := fits.past.joined fits.sound (fits.balanced.unplaced Ports.opens_opened_self) lacks
    taken := fun x hp => takes_withCode ?_ (Nat.le_refl _) }
  by_cases eq : x = l
  · subst eq
    refine fits.taken x (.inr fun none => ?_)
    simp [Ports.Lacks, Frame.opened, Ports.opened] at none
  · refine fits.taken x (hp.imp (fun hp => ?_) (mt (Ports.lacks_opened eq).mp))
    simpa only [withCode, Buffer.offset?_joined, eq, ↓reduceIte] using hp

/-- A label that was open is placed to be jumped back to. -/
theorem entered (fits : e.Fits plan (fr.opened l level) n)
    (lacks : fr.ports.Lacks l) (arrives : e.code.reachable = true → n = level) :
    (e.withCode (e.code.entered l)).Fits plan (fr.headed l level) level := by
  have takes : e.Takes fr.busy l := by
    refine fits.taken l (.inr fun none => ?_)
    simp [Ports.Lacks, Frame.opened, Ports.opened] at none
  refine { fits with
    sound := fits.sound.entered l
    balanced := fits.balanced.entered lacks arrives
    past := fits.past.entered fits.sound (fits.balanced.unplaced Ports.opens_opened_self)
    taken := fun x hp => takes_withCode ?_ (Nat.le_refl _) }
  by_cases eq : x = l
  · rw [eq]
    exact takes
  · refine fits.taken x (hp.imp (fun hp => ?_) fun used none => used ?_)
    · simpa only [withCode, Buffer.offset?_entered, eq, ↓reduceIte] using hp
    · exact (Ports.lacks_headed eq).mpr ((Ports.lacks_opened eq).mp none)

/-- A label at the end of the code may be jumped back to where control arrives. -/
theorem headed (fits : e.Fits plan fr n) (arrives : e.code.reachable = true)
    (here : e.code.offset? l = some e.code.size) (spared : e.Spares l)
    (lacks : fr.ports.Lacks l) : e.Fits plan (fr.headed l n) n := by
  refine { fits with
    balanced := fits.balanced.headed arrives here lacks
    past := fits.past.headed n (List.forall_mem_cons.mpr ⟨by simp [arrives], spared⟩)
    taken := fun x hp => ?_ }
  by_cases eq : x = l
  · rw [eq]
    exact fits.taken l (.inl (by simp [here]))
  · exact fits.taken x (hp.imp_right (mt (Ports.lacks_headed eq).mpr))

/-- A label that was jumped back to is no longer. -/
theorem beheaded (fits : e.Fits plan (fr.headed l level) n)
    (lacks : fr.ports.Lacks l) : e.Fits plan fr n := by
  refine { fits with
    balanced := fits.balanced.beheaded lacks
    past := fits.past.beheaded lacks
    taken := fun x hp => fits.taken x (hp.imp_right fun used none => used ?_) }
  by_cases eq : x = l
  · rw [eq]
    exact lacks
  · exact (Ports.lacks_headed eq).mp none

theorem add (fits : e.Fits plan fr n) {op : Op} {t : Nat} (changed : op.depthAfter n = some t)
    (hl : ∀ l, op.target? = some l → fr.ports.Leads l t)
    (hb : ∀ reg ∈ op.registers, reg.index < e.code.nextRegister) :
    (e.withCode (e.code.add op)).Fits plan fr t := by
  have eq : (e.code.add op).nextRegister = e.code.nextRegister ∧
      (e.code.add op).placed = e.code.placed ∧ (e.code.add op).nextHelper = e.code.nextHelper ∧
      ∀ x ∈ (e.code.add op).ops, x ∈ e.code.ops ∨ x = op := by
    unfold Buffer.add
    split <;> simp +contextual
  obtain ⟨registers, hp, helpers, ops⟩ := eq
  have offsets : (e.code.add op).offset? = e.code.offset? := by
    funext l
    simp [Buffer.offset?, hp]
  refine { fits with
    sound := fits.sound.add op
    balanced := fits.balanced.add fits.sound changed hl
    past := fits.past.add fits.sound fun l aims => (hl l aims).not_lacks
    taken := fun l used => takes_withCode (fits.taken l ?_) (Nat.le_of_eq helpers.symm)
    registers := fun x mem reg mentions => ?_
    locals := fun decl reg mem => ?_
    floor := ?_ }
  · simpa only [withCode, offsets] using used
  · simp only [withCode] at mem ⊢
    rw [registers]
    rcases ops x mem with old | rfl
    · exact fits.registers x old reg mentions
    · exact hb reg mentions
  · simp only [withCode]
    rw [registers]
    exact fits.locals decl reg mem
  · simp only [withCode]
    rw [registers]
    exact fits.floor

theorem handedOut (fits : e.Fits plan fr n) {code : Buffer} (ops : code.ops = e.code.ops)
    (hp : code.placed = e.code.placed) (reachable : code.reachable = e.code.reachable)
    (registers : e.code.nextRegister ≤ code.nextRegister)
    (helpers : e.code.nextHelper ≤ code.nextHelper) : (e.withCode code).Fits plan fr n := by
  have offsets : code.offset? = e.code.offset? := by
    funext l
    simp [Buffer.offset?, hp]
  have sound : code.Sound := by
    obtain ⟨hu, win, ended, closed⟩ := fits.sound
    refine ⟨?_, ?_, ?_, ?_⟩ <;>
      simpa only [offsets, Buffer.size, Buffer.isReferenced, ops, hp, reachable]
  refine { fits with
    sound
    balanced := fits.balanced.congr ops hp reachable
    past := fits.past.congr ops hp reachable sound
    taken := fun l used => takes_withCode (fits.taken l ?_) helpers
    registers := fun x mem reg mentions => ?_
    locals := fun decl reg mem => Nat.lt_of_lt_of_le (fits.locals decl reg mem) registers
    floor := Nat.le_trans fits.floor registers }
  · simpa only [withCode, offsets] using used
  · simp only [withCode, ops] at mem
    exact Nat.lt_of_lt_of_le (fits.registers x mem reg mentions) registers

theorem newRegister (fits : e.Fits plan fr n) : (e.withCode e.code.newRegister.2).Fits plan fr n :=
  fits.handedOut rfl rfl rfl (Nat.le_succ _) (Nat.le_refl _)

theorem bound (fits : e.Fits plan fr n) (decl : NodeId) : (e.bound decl).Fits plan fr n := by
  refine { fits.newRegister with locals := fun x reg hf => ?_ }
  by_cases eq : x = decl
  · obtain rfl : e.code.newRegister.1 = reg := by simpa [Emission.bound, eq] using hf
    exact Nat.lt_succ_self _
  · have ne : (x == decl) = false := by simpa using eq
    refine fits.newRegister.locals x reg ?_
    simpa [Emission.bound, List.lookup_cons, ne, withCode] using hf

/-- A helper label is handed out and may be jumped to. -/
theorem newHelper (fits : e.Fits plan fr n) :
    (e.withCode e.code.newHelper.2).Fits plan (fr.opened e.code.newHelper.1 n) n ∧
      fr.ports.Lacks e.code.newHelper.1 := by
  have free : e.code.offset? e.code.newHelper.1 = none ∧ fr.ports.Lacks e.code.newHelper.1 := by
    by_contra used
    have used : e.code.offset? e.code.newHelper.1 ≠ none ∨ ¬fr.ports.Lacks e.code.newHelper.1 := by
      by_contra none
      rw [not_or, not_not, not_not] at none
      exact used none
    exact Nat.lt_irrefl _ (fits.taken e.code.newHelper.1 used)
  have t : (e.withCode e.code.newHelper.2).Fits plan fr n :=
    fits.handedOut rfl rfl rfl (Nat.le_refl _) (Nat.le_succ _)
  exact ⟨t.opened n free.1 free.2 (Nat.lt_succ_self _), free.2⟩

end Fits

end Emission

end TreeCompiler
