import TreeCompiler.Proofs.CodeRules
import TreeCompiler.Proofs.SoundCode

/-!
# Balanced code

Code so far is balanced if every position has one number of open scopes, however control arrives
there. The jumps to labels that are not placed yet count with the number of scopes that will be open
at the label. Where control cannot arrive at the end, any number will do for what comes next.
-/

namespace TreeCompiler

variable {level : Nat}

/-- The labels that instructions may jump to, with the number of scopes open there. -/
structure Ports where
  /-- Labels that will be placed. -/
  opens : Label → Option Nat
  /-- Labels that were placed to be jumped back to. -/
  heads : Label → Option Nat

namespace Ports

/-- No labels. -/
def none : Ports := ⟨fun _ => .none, fun _ => .none⟩

/-- One more label that will be placed. -/
def opened (ports : Ports) (l : Label) (n : Nat) : Ports :=
  { ports with opens := Function.update ports.opens l (some n) }

/-- One more label to jump back to. -/
def headed (ports : Ports) (l : Label) (n : Nat) : Ports :=
  { ports with heads := Function.update ports.heads l (some n) }

/-- A jump to the label arrives with the number of open scopes. -/
def Leads (ports : Ports) (l : Label) (n : Nat) : Prop :=
  ports.opens l = some n ∨ ports.heads l = some n

/-- A label that no jump goes to yet. -/
def Lacks (ports : Ports) (l : Label) : Prop :=
  ports.opens l = .none ∧ ports.heads l = .none

variable {ports : Ports} {l x : Label} {n : Nat}

theorem opens_opened_self : (ports.opened l n).opens l = some n := by
  simp [opened]

theorem leads_opened_self : (ports.opened l n).Leads l n := by
  simp [Leads, opened]

theorem leads_headed_self : (ports.headed l n).Leads l n := by
  simp [Leads, headed]

theorem lacks_opened (ne : x ≠ l) : (ports.opened l n).Lacks x ↔ ports.Lacks x := by
  simp [Lacks, opened, Function.update_of_ne ne]

theorem lacks_headed (ne : x ≠ l) : (ports.headed l n).Lacks x ↔ ports.Lacks x := by
  simp [Lacks, headed, Function.update_of_ne ne]

theorem Leads.not_lacks (hl : ports.Leads l n) : ¬ports.Lacks l := by
  rintro ⟨unopened, unheaded⟩
  simp [Leads, unopened, unheaded] at hl

theorem Leads.opened (hl : ports.Leads x level) (lacks : ports.Lacks l) :
    (ports.opened l n).Leads x level := by
  have ne : x ≠ l := by
    rintro rfl
    exact hl.not_lacks lacks
  simpa [Leads, Ports.opened, Function.update_of_ne ne] using hl

theorem Leads.headed (hl : ports.Leads x level) (lacks : ports.Lacks l) :
    (ports.headed l n).Leads x level := by
  have ne : x ≠ l := by
    rintro rfl
    exact hl.not_lacks lacks
  simpa [Leads, Ports.headed, Function.update_of_ne ne] using hl

end Ports

namespace Buffer

/-- A number of open scopes for every position of the code so far and for its end. -/
structure Depths (ports : Ports) (depths : Nat → Nat) (buf : Buffer) : Prop where
  start : depths 0 = 0
  op : ∀ i op, buf.ops[i]? = some op → ∃ t, op.depthAfter (depths i) = some t ∧
      (op.isTerminal = false → depths (i + 1) = t) ∧
      ∀ l, op.target? = some l → (∃ offset, buf.offset? l = some offset ∧ depths offset = t) ∨
          ports.opens l = some t
  opens : ∀ l n, ports.opens l = some n → buf.offset? l = none
  heads : ∀ l n, ports.heads l = some n → ∃ offset, buf.offset? l = some offset ∧ depths offset = n

namespace Depths

variable {ports : Ports} {depths : Nat → Nat} {buf t : Buffer} {l : Label}

/-- A label that was jumped back to is no longer. -/
theorem beheaded (sound : buf.Depths (ports.headed l level) depths) (lacks : ports.Lacks l) :
    buf.Depths ports depths := by
  refine { sound with heads := fun x hf head => sound.heads x hf ?_ }
  have ne : x ≠ l := by
    rintro rfl
    simp [lacks.2] at head
  simpa [Ports.headed, Function.update_of_ne ne] using head

/-- A label is placed at the end, where the scopes of the jumps to it are open. -/
theorem place (sound : buf.Depths (ports.opened l level) depths) (lacks : ports.Lacks l)
    (offsets : ∀ x, t.offset? x = if x = l then some buf.size else buf.offset? x)
    (eq : t.ops = buf.ops) (meets : buf.isReferenced l = true → depths buf.size = level) :
    t.Depths (ports.headed l (depths buf.size)) depths := by
  obtain ⟨s, ops, opens, heads⟩ := sound
  have free := opens l level Ports.opens_opened_self
  refine ⟨s, fun i op hf => ?_, fun x hf open_ => ?_, fun x hf head => ?_⟩
  · rw [eq] at hf
    obtain ⟨t, changed, goes, jumps⟩ := ops i op hf
    refine ⟨t, changed, goes, fun x aims => ?_⟩
    by_cases eq : x = l
    · subst eq
      have referenced : buf.isReferenced x = true := by
        rw [isReferenced, List.any_eq_true]
        exact ⟨op, List.mem_of_getElem? hf, by simp [aims]⟩
      rcases jumps x aims with ⟨offset, hp, -⟩ | open_
      · simp [free] at hp
      · exact .inl ⟨buf.size, by simp [offsets],
          (meets referenced).trans (by simpa [Ports.opened] using open_)⟩
    · rcases jumps x aims with ⟨offset, hp, level⟩ | open_
      · exact .inl ⟨offset, by rwa [offsets, if_neg eq], level⟩
      · exact .inr (by simpa [Ports.headed, Ports.opened, Function.update_of_ne eq] using open_)
  · have ne : x ≠ l := by
      rintro rfl
      simp [Ports.headed, lacks.1] at open_
    rw [offsets, if_neg ne]
    exact opens x hf (by simpa [Ports.headed, Ports.opened, Function.update_of_ne ne] using open_)
  · by_cases eq : x = l
    · exact ⟨buf.size, by simp [offsets, eq], by simpa [Ports.headed, eq] using head⟩
    · obtain ⟨offset, hp, here⟩ := heads x hf
        (by simpa [Ports.headed, Ports.opened, Function.update_of_ne eq] using head)
      exact ⟨offset, by rwa [offsets, if_neg eq], here⟩

end Depths

/-- Code that can go on with the given number of open scopes. -/
def Balanced (ports : Ports) (n : Nat) (buf : Buffer) : Prop :=
  ∀ ending, (buf.reachable = true → ending = n) →
    ∃ depths, buf.Depths ports depths ∧ depths buf.size = ending

theorem balanced_empty : Balanced .none 0 {} := by
  intro ending hr
  obtain rfl := hr rfl
  exact ⟨fun _ => 0, ⟨rfl, by simp, by simp [Ports.none], by simp [Ports.none]⟩, rfl⟩

namespace Balanced

variable {ports : Ports} {n : Nat} {buf : Buffer}

/-- Where control does not arrive, code can go on with any number of scopes. -/
theorem anywhere (balanced : buf.Balanced ports n) (stopped : buf.reachable = false)
    (x : Nat) : buf.Balanced ports x := by
  intro ending _
  exact balanced ending (by simp [stopped])

/-- Changes that leave the instructions and labels alone. -/
theorem congr {t : Buffer} (balanced : buf.Balanced ports n) (ops : t.ops = buf.ops)
    (hp : t.placed = buf.placed) (reachable : t.reachable = buf.reachable) :
    t.Balanced ports n := by
  intro ending hr
  obtain ⟨depths, ⟨s, op, opens, heads⟩, ends⟩ := balanced ending (by rwa [← reachable])
  have offsets : t.offset? = buf.offset? := by
    funext l
    unfold offset?
    rw [hp]
  refine ⟨depths, ⟨s, ?_, ?_, ?_⟩, by rw [size, ops]; exact ends⟩
  · rw [ops, offsets]
    exact op
  · rw [offsets]
    exact opens
  · rw [offsets]
    exact heads

theorem add (balanced : buf.Balanced ports n) (sound : buf.Sound) {op : Op} {t : Nat}
    (changed : op.depthAfter n = some t) (hl : ∀ l, op.target? = some l → ports.Leads l t) :
    (buf.add op).Balanced ports t := by
  cases hr : buf.reachable with
  | false =>
    have dropped : buf.add op = { buf with dropped := buf.dropped + 1 } := by
      simp [Buffer.add, hr]
    rw [dropped]
    exact (balanced.anywhere hr t).congr rfl rfl rfl
  | true =>
    intro ending continues
    obtain ⟨depths, ⟨s, ops, opens, heads⟩, ends⟩ := balanced n fun _ => rfl
    have added : buf.add op =
        { buf with ops := buf.ops ++ [op], reachable := !op.isTerminal } := by
      simp [Buffer.add, hr]
    rw [added] at continues ⊢
    -- only the new end of the code gets another number of scopes
    let next := Function.update depths (buf.size + 1) ending
    have eq : ∀ i, i ≤ buf.size → next i = depths i := fun i bound =>
      Function.update_of_ne (by omega) _ _
    have offsetSame : ∀ l offset, buf.offset? l = some offset →
        next offset = depths offset := fun l offset hp =>
      eq offset (sound.within l offset hp)
    refine ⟨next, ⟨(eq 0 (by omega)).trans s, ?_, opens, ?_⟩, ?_⟩
    · intro i x hf
      by_cases last : i = buf.size
      · subst last
        obtain rfl : op = x := by
          simpa [size, List.getElem?_append_right] using hf
        refine ⟨t, by rwa [eq _ (by omega), ends], ?_, fun l aims => ?_⟩
        · intro goes
          have hs : ending = t := continues (by simpa using goes)
          exact (Function.update_self ..).trans hs
        · rcases hl l aims with open_ | head
          · exact .inr open_
          · obtain ⟨offset, hp, level⟩ := heads l t head
            exact .inl ⟨offset, hp, (offsetSame l offset hp).trans level⟩
      · have hi : i < buf.ops.length := by
          have bound := (List.getElem?_eq_some_iff.mp hf).1
          simp only [List.length_append, List.length_singleton] at bound
          unfold size at last
          omega
        have hf : buf.ops[i]? = some x := by
          rwa [List.getElem?_append_left hi] at hf
        obtain ⟨level, changed, goes, jumps⟩ := ops i x hf
        refine ⟨level, by rwa [eq i (by unfold size; omega)], fun continues => ?_, fun l aims => ?_⟩
        · rw [eq (i + 1) (by unfold size; omega)]
          exact goes continues
        · rcases jumps l aims with ⟨offset, hp, level⟩ | open_
          · exact .inl ⟨offset, hp, (offsetSame l offset hp).trans level⟩
          · exact .inr open_
    · intro l level head
      obtain ⟨offset, hp, here⟩ := heads l level head
      exact ⟨offset, hp, (offsetSame l offset hp).trans here⟩
    · simp [next, size]

theorem opened (balanced : buf.Balanced ports n) {l : Label} (level : Nat)
    (unplaced : buf.offset? l = none) (lacks : ports.Lacks l) :
    buf.Balanced (ports.opened l level) n := by
  intro ending hr
  obtain ⟨depths, ⟨s, ops, opens, heads⟩, ends⟩ := balanced ending hr
  refine ⟨depths, ⟨s, fun i op hf => ?_, fun x hf => ?_, heads⟩, ends⟩
  · obtain ⟨t, changed, goes, jumps⟩ := ops i op hf
    refine ⟨t, changed, goes, fun x aims => ?_⟩
    rcases jumps x aims with hp | open_
    · exact .inl hp
    · have ne : x ≠ l := by
        rintro rfl
        simp [lacks.1] at open_
      exact .inr (by simpa [Ports.opened, Function.update_of_ne ne] using open_)
  · intro open_
    by_cases eq : x = l
    · rw [eq, unplaced]
    · exact opens x hf (by simpa [Ports.opened, Function.update_of_ne eq] using open_)

/-- A label is placed that jumps went to. Control arrives with the number of scopes of those
jumps. -/
theorem joined {l : Label} (balanced : buf.Balanced (ports.opened l level) n)
    (lacks : ports.Lacks l)
    (arrives : buf.reachable = true → n = level) : (buf.joined l).Balanced ports level := by
  intro ending hr
  obtain ⟨depths, sound, rfl⟩ := balanced ending fun through =>
    (hr (by simp [Buffer.joined, through])).trans (arrives through).symm
  -- a jump makes the end reachable, so that the code ends with the scopes of the label
  exact ⟨depths, (sound.place lacks (buf.offset?_joined l) rfl fun referenced =>
    hr (by simp [Buffer.joined, referenced])).beheaded lacks, rfl⟩

theorem unplaced (balanced : buf.Balanced ports n) {l : Label}
    (open_ : ports.opens l = some level) : buf.offset? l = none := by
  obtain ⟨depths, ⟨-, -, opens, -⟩, -⟩ := balanced n fun _ => rfl
  exact opens l level open_

/-- A label is placed to be jumped back to. -/
theorem entered {l : Label} (balanced : buf.Balanced (ports.opened l level) n)
    (lacks : ports.Lacks l) (arrives : buf.reachable = true → n = level) :
    (buf.entered l).Balanced (ports.headed l level) level := by
  intro ending hr
  obtain ⟨depths, sound, rfl⟩ := balanced ending fun through => (hr rfl).trans (arrives through).symm
  exact ⟨depths, hr rfl ▸ sound.place lacks (buf.offset?_entered l) rfl fun _ => hr rfl, rfl⟩

/-- A label at the end of the code may be jumped back to where control arrives. -/
theorem headed (balanced : buf.Balanced ports n) {l : Label}
    (arrives : buf.reachable = true) (here : buf.offset? l = some buf.size)
    (lacks : ports.Lacks l) : buf.Balanced (ports.headed l n) n := by
  intro ending hr
  obtain rfl := hr arrives
  obtain ⟨depths, ⟨s, ops, opens, heads⟩, ends⟩ := balanced ending fun _ => rfl
  refine ⟨depths, ⟨s, ops, opens, fun x got head => ?_⟩, ends⟩
  by_cases eq : x = l
  · subst eq
    obtain rfl : ending = got := by simpa [Ports.headed] using head
    exact ⟨buf.size, here, ends⟩
  · exact heads x got (by simpa [Ports.headed, Function.update_of_ne eq] using head)

/-- A label that was jumped back to is no longer. -/
theorem beheaded {l : Label} (balanced : buf.Balanced (ports.headed l level) n)
    (lacks : ports.Lacks l) : buf.Balanced ports n := by
  intro ending hr
  obtain ⟨depths, sound, ends⟩ := balanced ending hr
  exact ⟨depths, sound.beheaded lacks, ends⟩

/-- Finished code that is balanced, uses its own registers only and has all labels placed keeps the
rules of code. -/
theorem keepsRules (balanced : buf.Balanced .none n) (sound : buf.Sound)
    (registers : ∀ op ∈ buf.ops, ∀ reg ∈ op.registers, reg.index < buf.nextRegister)
    (name : String) : (buf.toMethod name).KeepsRules := by
  obtain ⟨depths, ⟨s, ops, -, -⟩, -⟩ := balanced n fun _ => rfl
  have offsets := sound.labelOffset_toMethod name
  have sorted : ((labelsInOrder buf.placed).map Prod.fst).Nodup :=
    ((List.mergeSort_perm _ _).map _).nodup_iff.mpr sound.unique
  have jumps : ∀ l, (buf.toMethod name).jumpOffset l = buf.offset? l := by
    intro l
    rw [← offsets]
    apply Option.ext
    intro offset
    have reversed : (((labelsInOrder buf.placed).reverse).map Prod.fst).Nodup := by
      rw [List.map_reverse]
      exact (List.reverse_perm _).nodup_iff.mpr sorted
    change (labelsInOrder buf.placed).reverse.lookup l = some offset ↔
      (labelsInOrder buf.placed).lookup l = some offset
    rw [lookup_eq_some_iff_mem sorted, lookup_eq_some_iff_mem reversed, List.mem_reverse]
  refine ⟨sorted, ?_, ?_, depths, s, ?_⟩
  · intro entry mem
    have hp : entry ∈ buf.placed := (List.mergeSort_perm _ _).mem_iff.mp mem
    exact sound.within entry.1 entry.2 ((lookup_eq_some_iff_mem sound.unique).mpr hp)
  · intro op mem
    refine ⟨fun l aims => ?_, registers op mem⟩
    obtain ⟨i, hf⟩ := List.mem_iff_getElem?.mp mem
    obtain ⟨t, -, -, targets⟩ := ops i op hf
    rcases targets l aims with ⟨offset, hp, -⟩ | open_
    · simp [Method.isPlaced, offsets, hp]
    · simp [Ports.none] at open_
  · intro i op hf
    obtain ⟨t, changed, goes, targets⟩ := ops i op hf
    refine ⟨t, changed, goes, fun l offset aims hp => ?_⟩
    rw [jumps] at hp
    rcases targets l aims with ⟨x, placedOther, level⟩ | open_
    · rw [hp] at placedOther
      rwa [Option.some.inj placedOther]
    · simp [Ports.none] at open_

end Balanced

theorem finish_ok {buf : Buffer} {name : String} (rules : (buf.toMethod name).KeepsRules) :
    buf.finish name = .ok (buf.toMethod name) := by
  unfold finish
  dsimp only
  rw [rules.check]
  rfl

end Buffer

end TreeCompiler
