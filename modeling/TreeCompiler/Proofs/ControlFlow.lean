import TreeCompiler.Proofs.CodeRules
import TreeCompiler.Proofs.Courses
import TreeCompiler.Proofs.Reports
import TreeCompiler.Proofs.SoundCode

/-!
# Control flow of emitted code

Control starts at the first instruction and goes on to the next one or to the offset of a label. In
the code of an emitted unit it never arrives behind the last instruction, and where it cannot go on
the method returns.
-/

namespace TreeCompiler

open Step

namespace Op

/-- Whether the instruction ends the method. -/
def isReturn : Op → Bool
  | .returnValues _ | .returnNothing => true
  | _ => false

end Op

namespace Method

/-- Where control can go from a position: to the next one unless the instruction is terminal, and to
the offset of the label that it may jump to. -/
inductive Goes (m : Method) (i : Nat) : Nat → Prop
  | next {op : Op} (here : m.ops[i]? = some op) (continues : op.isTerminal = false) :
    Goes m i (i + 1)
  | jump {op : Op} {l : Label} {offset : Nat} (here : m.ops[i]? = some op)
    (aims : op.target? = some l) (hp : m.labelOffset l = some offset) :
    Goes m i offset

/-- The positions that control can arrive at. -/
def Reaches (m : Method) : Nat → Prop := Relation.ReflTransGen m.Goes 0

end Method

namespace Buffer.Sound

variable {buf : Buffer} (sound : buf.Sound)

include sound

/-- From a position of code that control does not run through, it goes to another one. -/
theorem goes_lt (stopped : buf.reachable = false) {name : String} {i next : Nat}
    (goes : (buf.toMethod name).Goes i next) : next < buf.size := by
  cases goes with
  | next here continues =>
    rename_i op
    obtain ⟨last, isLast, terminal⟩ := sound.ended stopped
    have bound : i < buf.size := (List.getElem?_eq_some_iff.mp here).1
    by_contra beyond
    have he : i = buf.ops.length - 1 := by
      unfold size at bound beyond
      omega
    rw [List.getLast?_eq_getElem?, ← he] at isLast
    have eq : op = last := Option.some.inj (here.symm.trans isLast)
    rw [eq, terminal] at continues
    simp at continues
  | jump here aims hp =>
    rename_i op l
    rw [sound.labelOffset_toMethod] at hp
    have bound := sound.within l next hp
    by_contra beyond
    have he : next = buf.size := by omega
    have unreferenced := sound.closed stopped l (he ▸ hp)
    have referenced : buf.isReferenced l = true := by
      unfold isReferenced
      rw [List.any_eq_true]
      exact ⟨op, List.mem_of_getElem? here, by simp [aims]⟩
    rw [unreferenced] at referenced
    simp at referenced

theorem reaches_lt (stopped : buf.reachable = false) {name : String} {pos : Nat}
    (hr : (buf.toMethod name).Reaches pos) : pos < buf.size := by
  induction hr with
  | refl =>
    obtain ⟨op, isLast, -⟩ := sound.ended stopped
    have nonempty : buf.ops ≠ [] := by
      rintro empty
      simp [empty] at isLast
    exact List.length_pos_iff.mpr nonempty
  | tail _ goes _ => exact sound.goes_lt stopped goes

end Buffer.Sound

namespace Method

/-- Control arrives at instructions only, and where it cannot go on the method returns. -/
def Returns (m : Method) : Prop :=
  ∀ pos, m.Reaches pos → ∃ op, m.ops[pos]? = some op ∧
      ((∀ next, ¬m.Goes pos next) → op.isReturn = true)

theorem returns_of_check {m : Method} (hc : m.check = .ok ())
    (hi : ∀ pos, m.Reaches pos → pos < m.ops.length) : m.Returns := by
  intro pos hr
  obtain ⟨op, here⟩ : ∃ op, m.ops[pos]? = some op :=
    ⟨_, List.getElem?_eq_getElem (hi pos hr)⟩
  refine ⟨op, here, ?_⟩
  intro stuck
  have terminal : op.isTerminal = true := by
    by_contra continues
    exact stuck _ (.next here (by simpa using continues))
  cases op with
  | returnValues vals => rfl
  | returnNothing => rfl
  | jump tgt =>
    -- the check saw to it that a jump goes somewhere
    have admitted : m.checkOps 0 m.ops = .ok () := by
      unfold check at hc
      cases ops : m.checkOps 0 m.ops with
      | ok u => rfl
      | error error => simp [ops, bind, Except.bind] at hc
    have hp := ((m.checkOps_ok_iff 0 _).mp admitted _
      (List.mem_of_getElem? here)).target tgt rfl
    obtain ⟨offset, hp⟩ := Option.isSome_iff_exists.mp hp
    exact absurd (.jump here rfl hp) (stuck offset)
  | _ => simp [Op.isTerminal] at terminal

end Method

/-! ### Missing returns are reported -/

/-- Once diagnostics are kept and one of them is serious, emission does not change that. -/
theorem emissionInvariant_serious :
    EmissionInvariant fun e => e.work.Logs ∧ e.work.sink.hasSerious = true where
  facts _ _ _ h _ := h
  report e diag h := by
    obtain ⟨⟨log, keeping⟩, serious⟩ := h
    rw [keeping] at serious
    refine ⟨Work.Logs.reported ⟨log, keeping⟩ diag, ?_⟩
    simp only [Emission.reported, keeping, Sink.report, Sink.hasSerious] at serious ⊢
    rw [Log.hasSerious_add, serious, Bool.true_or]
  scope _ _ h _ := h
  add _ _ h := h
  place _ _ h _ := h
  placeJoin _ _ h _ := h
  register _ h := h
  helper _ h := h
  bound _ _ h := h
  still _ h := h

theorem emissionInvariant_logs : EmissionInvariant fun e => e.work.Logs where
  facts _ _ _ logs _ := logs
  report _ diag logs := logs.reported diag
  scope _ _ logs _ := logs
  add _ _ logs := logs
  place _ _ logs _ := logs
  placeJoin _ _ logs _ := logs
  register _ logs := logs
  helper _ logs := logs
  bound _ _ logs := logs
  still _ logs := logs

namespace Emission

/-- A method that control could run through to the end is reported. -/
theorem method_returns {warn : Bool} {id : NodeId} {m : Method} {w t : Work}
    (logs : w.Logs) (done : Emission.method warn id w = .ok m t) :
    t.Logs ∧ (m.Returns ∨ t.sink.hasSerious = true) := by
  obtain ⟨e, emitted, rfl⟩ := method_ok.mp done
  have sound : e.code.Sound :=
    emissionInvariant_sound.keeps_emitMethod warn id _ m e Buffer.sound_empty emitted
  refine ⟨emissionInvariant_logs.keeps_emitMethod warn id _ m e logs emitted, ?_⟩
  obtain ⟨name, ps, rets, body, bound, through, ended, hf, ranParams, ranBody, ranEnd, rfl,
    finished⟩ := emitMethod_ok emitted
  -- the code of the method is the buffer's, and it passed the check
  have built : m = ended.code.toMethod name ∧ m.check = .ok () := by
    unfold Buffer.finish at finished
    cases hc : (ended.code.toMethod name).check with
    | error error => simp [withCode, hc] at finished
    | ok u =>
      have eq : ended.code.toMethod name = m := by
        simpa [withCode, hc, bind, Except.bind, pure, Except.pure] using finished
      exact ⟨eq.symm, eq ▸ hc⟩
  have returnsIf : ended.code.reachable = false → m.Returns := by
    intro stopped
    refine Method.returns_of_check built.2 fun pos hr => ?_
    rw [built.1] at hr ⊢
    exact Buffer.Sound.reaches_lt sound stopped hr
  rcases emitEnd_ok ranEnd with ⟨stopped, rfl⟩ | ⟨hr, -, rfl⟩ | ⟨-, span, rfl⟩
  · exact .inl (returnsIf stopped)
  · exact .inl (returnsIf (by simp [withCode, Buffer.add, hr, Op.isTerminal]))
  · have logs : through.work.Logs := emissionInvariant_logs.keeps_emitBody warn body bound ()
      through (emissionInvariant_logs.keeps_bindParams ps _ () bound logs ranParams) ranBody
    obtain ⟨log, keeping⟩ := logs
    simp only [withCode, withTree, reported, keeping, Sink.report, Sink.hasSerious]
    rw [Log.hasSerious_add]
    simp [Diagnostic.errorAt, Severity.isSerious]

end Emission

theorem Course.emitMethods_return {ids : List NodeId} {c t : Course} {methods : List Method}
    (logs : c.work.Logs) (done : emitMethods ids c = .ok methods t) :
    t.work.Logs ∧ (t.work.sink.hasSerious = false →
        c.work.sink.hasSerious = false ∧ ∀ m ∈ methods, m.Returns) := by
  induction ids generalizing c methods with
  | nil =>
    cases done
    exact ⟨logs, fun quiet => ⟨quiet, by simp⟩⟩
  | cons id rest ih =>
    obtain ⟨m, others, w, rfl, -, ran, done⟩ := emitMethods_cons_ok done
    obtain ⟨logged, returned⟩ := Emission.method_returns logs ran
    obtain ⟨logged, quietly⟩ := ih logged done
    refine ⟨logged, fun quiet => ?_⟩
    obtain ⟨quietWork, others⟩ := quietly quiet
    have fst : m.Returns := by
      rcases returned with returned | serious
      · exact returned
      · rw [quietWork] at serious
        simp at serious
    refine ⟨?_, List.forall_mem_cons.mpr ⟨fst, others⟩⟩
    by_contra serious
    obtain ⟨e, emitted, rfl⟩ := Emission.method_ok.mp ran
    have still : e.work.sink.hasSerious = true :=
      (emissionInvariant_serious.keeps_emitMethod _ id _ m e
        ⟨logs, by simpa using serious⟩ emitted).2
    rw [quietWork] at still
    simp at still

namespace Session

variable (session : Session) (symbols : SymbolTable) (tree : Tree)

/-- Control never runs off the end of emitted code: every position that it arrives at from the first
instruction holds an instruction, and where no way leads on, that instruction returns. -/
theorem emitted_methods_return (emitted : (session.compile symbols tree).report.status = .emitted) :
    ∀ method ∈ (session.compile symbols tree).report.methods, ∀ position, method.Reaches position →
      position < method.ops.length ∧ ((∀ next, ¬method.Goes position next) →
          ∃ op, method.ops[position]? = some op ∧ op.isReturn = true) := by
  intro method member position reached
  obtain ⟨root, after, -, ran, -, -⟩ := compile_emitted emitted
  obtain ⟨outcome, resolved, root, validated, ranResolve, ranValidate, ranEmit, quiet⟩ :=
    Course.run_ok ran
  have logs : resolved.work.Logs :=
    ((resolutionInvariant_logs.always_resolve none).keeps _ outcome resolved ⟨⟨_, rfl⟩, rfl⟩ ranResolve).1
  obtain ⟨work, ranValidation, rfl⟩ := Course.validate_ok ranValidate
  have logs : work.Logs :=
    validationInvariant_logs.keeps_validate trivial _ _ work logs ranValidation
  obtain ⟨ids, last, -, ranMethods, ended⟩ := Course.emit_ok ranEmit
  have quiet : last.work.sink.hasSerious = false := by
    rcases ended with rfl | changed
    · exact quiet
    · rwa [changed] at quiet
  obtain ⟨-, returned⟩ := Course.emitMethods_return logs ranMethods
  obtain ⟨op, here, returns⟩ := (returned quiet).2 method member position reached
  exact ⟨(List.getElem?_eq_some_iff.mp here).1, fun stuck => ⟨op, here, returns stuck⟩⟩

end Session

/-- A unit whose only method goes round a loop until its parameter is false. -/
def loopUnit : Tree where
  nodes := #[{ form := .type (.named ["Boolean"] []), parent := some ⟨9⟩ },
    { form := .expr (.name "b"), parent := some ⟨6⟩ },
    { form := .expr (.name "b"), parent := some ⟨4⟩ },
    { form := .expr (.literal (.bool false)), parent := some ⟨4⟩ },
    { form := .stmt (.assign ⟨2⟩ ⟨3⟩), parent := some ⟨5⟩ },
    { form := .stmt (.block [⟨4⟩]), parent := some ⟨6⟩ },
    { form := .stmt (.whileLoop [⟨1⟩] ⟨5⟩ false), parent := some ⟨8⟩ },
    { form := .stmt (.returnValues []), parent := some ⟨8⟩ },
    { form := .stmt (.block [⟨6⟩, ⟨7⟩]), parent := some ⟨9⟩ },
    { form := .stmt (.method "m" [⟨"b", ⟨0⟩⟩] [] ⟨8⟩) }]
  root := some ⟨9⟩

/-- The code of its method. -/
def loopMethod : Method where
  name := "m"
  ops := [.jump ⟨0, .continueLoop⟩, .move (.constant ⟨1⟩) ⟨0⟩,
    .jumpTrue (.register ⟨0⟩) ⟨0, .repeatLoop⟩, .returnNothing]
  registers := 1
  labels := [(⟨0, .repeatLoop⟩, 1), (⟨0, .continueLoop⟩, 2), (⟨0, .breakOut⟩, 3)]

theorem loopUnit_report : (Session.compile {} {} loopUnit).report =
    { status := .emitted, methods := [loopMethod], diagnostics := [],
      resolution := some (.complete 1) } := by
  cbv

theorem loopMethod_stays_inside : (Session.compile {} {} loopUnit).report.status = .emitted ∧
    loopMethod ∈ (Session.compile {} {} loopUnit).report.methods ∧
    ∀ position, loopMethod.Reaches position → position < 4 := by
  have emitted : (Session.compile {} {} loopUnit).report.status = .emitted := by
    rw [loopUnit_report]
  have member : loopMethod ∈ (Session.compile {} {} loopUnit).report.methods := by
    rw [loopUnit_report]
    exact List.mem_singleton_self _
  exact ⟨emitted, member, fun position reached =>
    (Session.emitted_methods_return {} {} loopUnit emitted loopMethod member position reached).1⟩

end TreeCompiler
