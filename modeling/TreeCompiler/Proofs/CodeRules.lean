import Mathlib
import TreeCompiler.Code.Buffer

/-!
# The rules of code

What it takes for finished code to pass its check.
-/

namespace TreeCompiler.Method

variable (m : Method)

/-- The rules for a single instruction: its jump goes to a placed label and its registers are
there. -/
structure Admits (op : Op) : Prop where
  target : ∀ l, op.target? = some l → m.isPlaced l = true
  registers : ∀ reg ∈ op.registers, reg.index < m.registers

theorem checkTarget_ok (i : Nat) (op : Op) : m.checkTarget i op = .ok () ↔
      ∀ l, op.target? = some l → m.isPlaced l = true := by
  unfold checkTarget
  cases op.target? with
  | none => simp
  | some l =>
    split <;> simp_all

theorem checkRegisters_ok (i : Nat) (op : Op) : m.checkRegisters i op = .ok () ↔
      ∀ reg ∈ op.registers, reg.index < m.registers := by
  unfold checkRegisters
  split
  · rename_i none
    simpa using none
  · rename_i reg hf
    simp only [reduceCtorEq, false_iff, not_forall]
    exact ⟨reg, List.mem_of_find?_eq_some hf, by simpa using List.find?_some hf⟩

/-- The check of the instructions asks for the rules of each of them. -/
theorem checkOps_ok_iff (i : Nat) (ops : List Op) :
    m.checkOps i ops = .ok () ↔ ∀ op ∈ ops, m.Admits op := by
  induction ops generalizing i with
  | nil => simp [checkOps]
  | cons op rest ih =>
    have here : m.Admits op ↔
        m.checkTarget i op = .ok () ∧ m.checkRegisters i op = .ok () := by
      rw [checkTarget_ok, checkRegisters_ok]
      exact ⟨fun admits => ⟨admits.target, admits.registers⟩, fun ⟨tgt, registers⟩ =>
        ⟨tgt, registers⟩⟩
    unfold checkOps
    rw [List.forall_mem_cons, here, ← ih (i + 1)]
    cases m.checkTarget i op with
    | error error => simp [bind, Except.bind]
    | ok u =>
      cases m.checkRegisters i op with
      | error error => simp [bind, Except.bind]
      | ok u => simp [bind, Except.bind]

theorem checkLabels_ok (hi : ∀ entry ∈ m.labels, entry.2 ≤ m.ops.length) :
    m.checkLabels = .ok () := by
  unfold checkLabels
  split
  · rfl
  · rename_i l offset hf
    have beyond : m.ops.length < offset := by simpa using List.find?_some hf
    have win := hi _ (List.mem_of_find?_eq_some hf)
    omega

/-- A number of open scopes for every position, borne out by every instruction. -/
structure Levels (depths : Nat → Nat) : Prop where
  start : depths 0 = 0
  op : ∀ i op, m.ops[i]? = some op → ∃ t, op.depthAfter (depths i) = some t ∧
      (op.isTerminal = false → depths (i + 1) = t) ∧
      ∀ l offset, op.target? = some l → m.jumpOffset l = some offset → depths offset = t

/-- Arrivals that control can be followed along: they have one number of open scopes for each
position, and every instruction leads from one of them to others. -/
structure Consistent (expected : Nat → Nat → Prop) : Prop where
  start : expected 0 0
  single : ∀ i n x, expected i n → expected i x → n = x
  goes : ∀ i n op, expected i n → m.ops[i]? = some op → ∃ t, op.depthAfter n = some t ∧
      ∀ arrival ∈ m.arrivalsFrom i op t, expected arrival.1 arrival.2

variable {m : Method} {depths : Nat → Nat} {expected : Nat → Nat → Prop}

theorem mem_arrivalsFrom {i n : Nat} {op : Op} {arrival : Arrival} :
    arrival ∈ m.arrivalsFrom i op n ↔ (op.isTerminal = false ∧ arrival = (i + 1, n)) ∨
        ∃ l offset, op.target? = some l ∧ m.jumpOffset l = some offset ∧ arrival = (offset, n) := by
  unfold arrivalsFrom
  rw [List.mem_append]
  apply or_congr
  · cases op.isTerminal <;> simp
  · simp only [List.mem_map, Option.mem_toList, Option.bind_eq_some_iff]
    grind

theorem Levels.consistent (levels : m.Levels depths) : m.Consistent fun i n => depths i = n where
  start := levels.start
  single _ _ _ fst snd := fst.symm.trans snd
  goes i n op here fetched := by
    obtain ⟨t, changed, next, jumps⟩ := levels.op i op fetched
    refine ⟨t, here ▸ changed, ?_⟩
    intro arrival comes
    rcases mem_arrivalsFrom.mp comes with ⟨continues, rfl⟩ | ⟨l, offset, aims, hp, rfl⟩
    · exact next continues
    · exact jumps l offset aims hp

/-- A walk that has noted expected arrivals only and has only such arrivals left. -/
structure ScopeWalk.Meets (expected : Nat → Nat → Prop) (walk : ScopeWalk) : Prop where
  noted : ∀ i n, walk.depths[i]? = some (some n) → expected i n
  awaits : ∀ arrival ∈ walk.pending, expected arrival.1 arrival.2

theorem meets_startWalk (consistent : m.Consistent expected) : m.startWalk.Meets expected where
  noted i n seen := by
    simp only [startWalk, Array.getElem?_replicate] at seen
    split at seen <;> simp at seen
  awaits arrival comes := by
    obtain rfl : arrival = (0, 0) := by simpa [startWalk] using comes
    exact consistent.start

/-- An expected arrival is looked at without an error, and those that follow are expected. -/
theorem Consistent.visit (consistent : m.Consistent expected) {walk : ScopeWalk}
    (meets : walk.Meets expected) {i n : Nat} {rest : List Arrival}
    (left : walk.pending = (i, n) :: rest) :
    ∃ next, m.visit walk.depths rest i n = .ok next ∧ next.Meets expected := by
  have here : expected i n := meets.awaits (i, n) (by simp [left])
  have later : ∀ arrival ∈ rest, expected arrival.1 arrival.2 := fun arrival mem =>
    meets.awaits arrival (by simp [left, mem])
  have hn : ∀ x scopes, (walk.depths.setIfInBounds i (some n))[x]? = some (some scopes) →
        expected x scopes := by
    intro x scopes seen
    rw [Array.getElem?_setIfInBounds] at seen
    by_cases eq : i = x
    · subst eq
      obtain ⟨-, rfl⟩ : i < walk.depths.size ∧ n = scopes := by simpa using seen
      exact here
    · rw [if_neg eq] at seen
      exact meets.noted x scopes seen
  cases note : walk.depths[i]? with
  | none => exact ⟨_, visit_ok.mpr (.inl ⟨.inl note, rfl⟩), meets.noted, later⟩
  | some he =>
    cases he with
    | some seen =>
      have eq : seen = n := consistent.single i seen n (meets.noted _ _ note) here
      exact ⟨_, visit_ok.mpr (.inl ⟨.inr (eq ▸ note), rfl⟩), meets.noted, later⟩
    | none =>
      cases fetched : m.ops[i]? with
      | none => exact ⟨_, visit_ok.mpr (.inr ⟨note, .inl ⟨fetched, rfl⟩⟩), hn, later⟩
      | some op =>
        obtain ⟨t, changed, goes⟩ := consistent.goes i n op here fetched
        refine ⟨_, visit_ok.mpr (.inr ⟨note, .inr ⟨op, t, fetched, changed, rfl⟩⟩), hn, ?_⟩
        intro arrival comes
        rcases List.mem_append.mp comes with comes | mem
        · exact goes arrival comes
        · exact later arrival mem

/-- Code that control can be followed through passes the walk over its scopes. -/
theorem Consistent.walkScopes (consistent : m.Consistent expected) (walk : ScopeWalk)
    (meets : walk.Meets expected) : m.walkScopes walk = .ok () := by
  fun_induction m.walkScopes walk with
  | case1 => rfl
  | case2 walk i n rest left error hl =>
    obtain ⟨next, passes, -⟩ := consistent.visit meets left
    simp [hl] at passes
  | case3 walk i n rest left next hl ih =>
    obtain ⟨eq, passes, meets⟩ := consistent.visit meets left
    obtain rfl : next = eq := by simpa [hl] using passes
    exact ih meets

/-- The rules of code: every label is placed once and inside the code, every jump goes to a placed
label, every register is there, and every position has one number of open scopes. -/
structure KeepsRules (m : Method) : Prop where
  unique : (m.labels.map Prod.fst).Nodup
  inside : ∀ entry ∈ m.labels, entry.2 ≤ m.ops.length
  admits : ∀ op ∈ m.ops, m.Admits op
  levels : ∃ depths, m.Levels depths

theorem KeepsRules.check {m : Method} (rules : m.KeepsRules) : m.check = .ok () := by
  obtain ⟨depths, levels⟩ := rules.levels
  have walked : m.checkScopes = .ok () :=
    levels.consistent.walkScopes _ (meets_startWalk levels.consistent)
  unfold Method.check
  rw [(m.checkOps_ok_iff 0 _).mpr rules.admits, m.checkLabels_ok rules.inside, walked]
  rfl

end TreeCompiler.Method
