import TreeCompiler.Proofs.ControlFlow

/-!
# Walks over the scopes of code

The check of code follows control from the first instruction and looks at every arrival once. Such a
walk always ends, it never leaves the table of its notes, and it ends well exactly if every way to a
position enters the same number of scopes and leaves none that it did not enter.
-/

namespace TreeCompiler

open Relation

variable {op : Op} {n i : Nat} {arrival : Arrival} {walk next : ScopeWalk}

namespace Op

/-- The number of scopes that an instruction opens; it is negative where one is closed. -/
def opened : Op → Int
  | .enter => 1
  | .exit => -1
  | _ => 0

theorem depthAfter_eq_some {t : Nat} : op.depthAfter n = some t ↔
      (op = .exit → n ≠ 0) ∧ (t : Int) = n + op.opened := by
  cases op <;> simp only [depthAfter, opened] <;> grind

end Op

namespace Method

variable {method : Method}

/-- The ways from the first instruction to a position, each with the number of scopes that it
entered less those that it left. -/
inductive Path (method : Method) : Nat → Int → Prop
  | start : Path method 0 0
  | go {i next : Nat} {scopes : Int} {op : Op} (path : Path method i scopes)
    (here : method.ops[i]? = some op) (goes : method.Goes i next) :
    Path method next (scopes + op.opened)

/-- A round of the walk: an arrival is looked at, and nothing is wrong with it. -/
def Leads (method : Method) (walk next : ScopeWalk) : Prop :=
  ∃ i n rest, walk.pending = (i, n) :: rest ∧ method.visit walk.depths rest i n = .ok next

/-! ### The walk ends -/

theorem wellFounded_leads (method : Method) :
    WellFounded fun next walk => method.Leads walk next := by
  let measure (walk : ScopeWalk) := (walk.unseen, walk.pending.length)
  have founded := (InvImage.wf measure (Prod.lex Nat.lt_wfRel Nat.lt_wfRel).wf)
  refine Subrelation.wf ?_ founded
  rintro next walk ⟨i, n, rest, left, hl⟩
  exact Prod.lex_def.mpr (visit_lt left hl)

/-- A walk ends well if its rounds lead to one without arrivals. -/
theorem walkScopes_ok_iff (walk : ScopeWalk) : method.walkScopes walk = .ok () ↔
      ∃ last, ReflTransGen method.Leads walk last ∧ last.pending = [] := by
  fun_induction method.walkScopes walk with
  | case1 walk done => exact ⟨fun _ => ⟨walk, .refl, done⟩, fun _ => rfl⟩
  | case2 walk i n rest left error hl =>
    simp only [reduceCtorEq, false_iff, not_exists, not_and]
    intro last hle done
    rcases hle.cases_head with rfl | ⟨next, ⟨_, _, _, also, passes⟩, -⟩
    · simp [left] at done
    · obtain ⟨⟨rfl, rfl⟩, rfl⟩ : (i = _ ∧ n = _) ∧ rest = _ := by simpa [left] using also
      simp [hl] at passes
  | case3 walk i n rest left next hl ih =>
    rw [ih]
    constructor
    · rintro ⟨last, hle, done⟩
      exact ⟨last, .head ⟨i, n, rest, left, hl⟩ hle, done⟩
    · rintro ⟨last, hle, done⟩
      rcases hle.cases_head with rfl | ⟨x, ⟨_, _, _, also, passes⟩, hle⟩
      · simp [left] at done
      · obtain ⟨⟨rfl, rfl⟩, rfl⟩ : (i = _ ∧ n = _) ∧ rest = _ := by simpa [left] using also
        obtain rfl : next = x := by simpa [hl] using passes
        exact ⟨last, hle, done⟩

/-! ### The walk stays inside its table -/

/-- A walk with a note for every position whose arrivals are at positions. -/
structure ScopeWalk.Stays (method : Method) (walk : ScopeWalk) : Prop where
  size : walk.depths.size = method.ops.length + 1
  awaits : ∀ arrival ∈ walk.pending, arrival.1 < walk.depths.size

theorem stays_startWalk : method.startWalk.Stays method where
  size := by simp [startWalk]
  awaits arrival comes := by
    obtain rfl : arrival = (0, 0) := by simpa [startWalk] using comes
    simp [startWalk]

theorem jumpOffset_le (hi : ∀ en ∈ method.labels, en.2 ≤ method.ops.length)
    {l : Label} {offset : Nat} (hp : method.jumpOffset l = some offset) :
    offset ≤ method.ops.length := by
  obtain ⟨b, t, split, -⟩ := List.lookup_eq_some_iff.mp hp
  apply hi (l, offset)
  rw [← List.mem_reverse, split]
  simp

/-- An instruction leads to positions only. -/
theorem lt_of_mem_arrivalsFrom (hi : ∀ en ∈ method.labels, en.2 ≤ method.ops.length)
    (here : method.ops[i]? = some op) (comes : arrival ∈ method.arrivalsFrom i op n) :
    arrival.1 < method.ops.length + 1 := by
  have bound : i < method.ops.length := (List.getElem?_eq_some_iff.mp here).1
  rcases mem_arrivalsFrom.mp comes with ⟨-, rfl⟩ | ⟨l, offset, -, hp, rfl⟩
  · exact Nat.succ_lt_succ bound
  · exact Nat.lt_succ_of_le (jumpOffset_le hi hp)

theorem ScopeWalk.Stays.leads (hi : ∀ en ∈ method.labels, en.2 ≤ method.ops.length)
    (stays : walk.Stays method) (hle : method.Leads walk next) : next.Stays method := by
  obtain ⟨i, n, rest, left, hl⟩ := hle
  have later : ∀ arrival ∈ rest, arrival.1 < walk.depths.size := fun arrival mem =>
    stays.awaits arrival (by simp [left, mem])
  rcases visit_ok.mp hl with ⟨-, rfl⟩ | ⟨-, ⟨-, rfl⟩ | ⟨op, t, here, -, rfl⟩⟩
  · exact ⟨stays.size, later⟩
  · exact ⟨by simp [stays.size], by simpa using later⟩
  · refine ⟨by simp [stays.size], fun arrival comes => ?_⟩
    rw [Array.size_setIfInBounds]
    rcases List.mem_append.mp comes with comes | mem
    · rw [stays.size]
      exact lt_of_mem_arrivalsFrom hi here comes
    · exact later arrival mem

/-! ### What a walk that ends has found -/

namespace ScopeWalk

/-- An arrival that is noted or still to be looked at. -/
def Knows (walk : ScopeWalk) (arrival : Arrival) : Prop :=
  walk.depths[arrival.1]? = some (some arrival.2) ∨ arrival ∈ walk.pending

/-- A walk that knows where control goes from every position it has noted. -/
structure Follows (method : Method) (walk : ScopeWalk) : Prop where
  start : walk.Knows (0, 0)
  goes : ∀ i n op, walk.depths[i]? = some (some n) → method.ops[i]? = some op →
    ∃ t, op.depthAfter n = some t ∧ ∀ arrival ∈ method.arrivalsFrom i op t, walk.Knows arrival

theorem follows_startWalk : method.startWalk.Follows method where
  start := .inr (by simp [startWalk])
  goes i n op seen := by
    simp only [startWalk, Array.getElem?_replicate] at seen
    split at seen <;> simp at seen

theorem getElem?_setIfInBounds_blank {depths : Array (Option Nat)}
    (blank : depths[i]? = some none) (n x : Nat) : (depths.setIfInBounds i (some n))[x]? =
      if i = x then some (some n) else depths[x]? := by
  have hi : i < depths.size := (Array.getElem?_eq_some_iff.mp blank).1
  by_cases eq : i = x
  · simp [eq, eq ▸ hi]
  · simp [eq]

theorem Knows.leads (stays : walk.Stays method)
    (hle : method.Leads walk next) (hk : walk.Knows arrival) : next.Knows arrival := by
  obtain ⟨i, n, rest, left, hl⟩ := hle
  obtain ⟨there, scopes⟩ := arrival
  have hi : i < walk.depths.size := stays.awaits (i, n) (by simp [left])
  have cases : walk.depths[there]? = some (some scopes) ∨
      (there = i ∧ scopes = n) ∨ (there, scopes) ∈ rest := by
    simpa [Knows, left] using hk
  rcases visit_ok.mp hl with ⟨hn, rfl⟩ | ⟨blank, hf⟩
  · have hn : walk.depths[i]? = some (some n) := by
      rcases hn with outside | hn
      · simp [hi] at outside
      · exact hn
    rcases cases with seen | ⟨rfl, rfl⟩ | mem
    · exact .inl seen
    · exact .inl hn
    · exact .inr mem
  · obtain ⟨added, rfl⟩ : ∃ added, next =
        { depths := walk.depths.setIfInBounds i (some n), pending := added ++ rest } := by
      rcases hf with ⟨-, rfl⟩ | ⟨op, t, -, -, rfl⟩
      · exact ⟨[], rfl⟩
      · exact ⟨_, rfl⟩
    unfold Knows
    rw [getElem?_setIfInBounds_blank blank]
    rcases cases with seen | ⟨rfl, rfl⟩ | mem
    · left
      by_cases eq : i = there
      · rw [eq, seen] at blank
        simp at blank
      · rw [if_neg eq]
        exact seen
    · exact .inl (if_pos rfl)
    · exact .inr (List.mem_append_right _ mem)

theorem Follows.leads (stays : walk.Stays method)
    (hf : walk.Follows method) (hle : method.Leads walk next) : next.Follows method := by
  have hk : ∀ arrival, walk.Knows arrival → next.Knows arrival := fun _ hk =>
    hk.leads stays hle
  refine ⟨hk _ hf.start, fun there scopes op seen here => ?_⟩
  have b (seen : walk.depths[there]? = some (some scopes)) : ∃ t, op.depthAfter scopes = some t ∧
        ∀ arrival ∈ method.arrivalsFrom there op t, next.Knows arrival := by
    obtain ⟨t, changed, goes⟩ := hf.goes there scopes op seen here
    exact ⟨t, changed, fun arrival comes => hk arrival (goes arrival comes)⟩
  obtain ⟨i, n, rest, left, hl⟩ := hle
  rcases visit_ok.mp hl with ⟨-, rfl⟩ | ⟨blank, ⟨ends, rfl⟩ | ⟨x, t, fetched, changed, rfl⟩⟩
  · exact b seen
  · rw [getElem?_setIfInBounds_blank blank] at seen
    split at seen
    · rename_i eq
      simp [← eq, ends] at here
    · exact b seen
  · rw [getElem?_setIfInBounds_blank blank] at seen
    split at seen
    · rename_i eq
      cases seen
      subst eq
      obtain rfl : x = op := by simpa [fetched] using here
      exact ⟨t, changed, fun arrival comes => .inr (List.mem_append_left _ comes)⟩
    · exact b seen

/-- The notes of a walk that has come to its end let control be followed. -/
theorem Follows.consistent (hf : walk.Follows method) (done : walk.pending = []) :
    method.Consistent fun i n => walk.depths[i]? = some (some n) where
  start := by simpa [Knows, done] using hf.start
  single i n x fst snd := by simpa [fst] using snd
  goes i n op seen here := by
    obtain ⟨t, changed, goes⟩ := hf.goes i n op seen here
    exact ⟨t, changed, fun arrival comes => by simpa [Knows, done] using goes arrival comes⟩

end ScopeWalk

theorem stays_of_leads (hi : ∀ en ∈ method.labels, en.2 ≤ method.ops.length)
    (hl : ReflTransGen method.Leads method.startWalk walk) :
    walk.Stays method ∧ walk.Follows method := by
  induction hl with
  | refl => exact ⟨stays_startWalk, ScopeWalk.follows_startWalk⟩
  | tail _ hl ih => exact ⟨ih.1.leads hi hl, ih.2.leads ih.1 hl⟩

/-- The walk ends well if control can be followed, and only then. -/
theorem checkScopes_ok_iff (hi : ∀ en ∈ method.labels, en.2 ≤ method.ops.length) :
    method.checkScopes = .ok () ↔ ∃ expected, method.Consistent expected := by
  constructor
  · intro passes
    obtain ⟨last, hl, done⟩ := (walkScopes_ok_iff _).mp passes
    exact ⟨_, (stays_of_leads hi hl).2.consistent done⟩
  · rintro ⟨expected, consistent⟩
    exact consistent.walkScopes _ (meets_startWalk consistent)

/-! ### Paths -/

/-- Where no label stands twice, it does not matter from which end it is looked for. -/
theorem jumpOffset_eq (hu : (method.labels.map Prod.fst).Nodup) (l : Label) :
    method.jumpOffset l = method.labelOffset l := by
  have reversed : (method.labels.reverse.map Prod.fst).Nodup := by
    rw [List.map_reverse]
    exact (List.reverse_perm _).nodup_iff.mpr hu
  apply Option.ext
  intro offset
  unfold jumpOffset labelOffset
  rw [lookup_eq_some_iff_mem reversed, lookup_eq_some_iff_mem hu, List.mem_reverse]

theorem mem_arrivalsFrom_iff_goes (hu : (method.labels.map Prod.fst).Nodup)
    (here : method.ops[i]? = some op) : arrival ∈ method.arrivalsFrom i op n ↔
      method.Goes i arrival.1 ∧ arrival.2 = n := by
  rw [mem_arrivalsFrom]
  constructor
  · rintro (⟨continues, rfl⟩ | ⟨l, offset, aims, hp, rfl⟩)
    · exact ⟨.next here continues, rfl⟩
    · exact ⟨.jump here aims (jumpOffset_eq hu l ▸ hp), rfl⟩
  · rintro ⟨goes, rfl⟩
    obtain ⟨next, n⟩ := arrival
    cases goes with
    | next also continues =>
      obtain rfl : op = _ := by simpa [here] using also
      exact .inl ⟨continues, rfl⟩
    | jump also aims hp =>
      obtain rfl : op = _ := by simpa [here] using also
      exact .inr ⟨_, _, aims, (jumpOffset_eq hu _).trans hp, rfl⟩

/-- Along every path the number of open scopes is the expected one. -/
theorem Consistent.path (hu : (method.labels.map Prod.fst).Nodup)
    {expected : Nat → Nat → Prop} (consistent : method.Consistent expected) {pos : Nat}
    {scopes : Int} (path : method.Path pos scopes) : ∃ n : Nat, scopes = n ∧ expected pos n := by
  induction path with
  | start => exact ⟨0, rfl, consistent.start⟩
  | @go i next _ op path here goes ih =>
    obtain ⟨n, rfl, hr⟩ := ih
    obtain ⟨t, changed, hl⟩ := consistent.goes i n op hr here
    refine ⟨t, ?_, hl (next, t) ((mem_arrivalsFrom_iff_goes hu here).mpr ⟨goes, rfl⟩)⟩
    exact (Op.depthAfter_eq_some.mp changed).2.symm

/-- Control can be followed if and only if all paths to a position open one number of scopes and
none of them closes a scope that is not open. -/
theorem exists_consistent_iff (hu : (method.labels.map Prod.fst).Nodup) :
    (∃ expected, method.Consistent expected) ↔
      ∃ depths : Nat → Nat, ∀ pos scopes, method.Path pos scopes →
        scopes = depths pos ∧ (method.ops[pos]? = some .exit → scopes ≠ 0) := by
  constructor
  · rintro ⟨expected, consistent⟩
    classical
    refine ⟨fun pos => if hf : ∃ n, expected pos n then hf.choose else 0, ?_⟩
    intro pos scopes path
    obtain ⟨n, rfl, hr⟩ := consistent.path hu path
    have hf : ∃ n, expected pos n := ⟨n, hr⟩
    have eq : n = hf.choose := consistent.single _ _ _ hr hf.choose_spec
    refine ⟨by simp only [hf, ↓reduceDIte, eq], fun leaves => ?_⟩
    obtain ⟨t, changed, -⟩ := consistent.goes pos n .exit hr leaves
    exact_mod_cast (Op.depthAfter_eq_some.mp changed).1 rfl
  · rintro ⟨depths, counts⟩
    refine ⟨fun pos n => method.Path pos n, .start, ?_, ?_⟩
    · intro pos n x fst snd
      have he := (counts pos n fst).1.trans (counts pos x snd).1.symm
      exact_mod_cast he
    · intro pos n op path here
      have hen : op = .exit → n ≠ 0 := by
        rintro rfl
        exact_mod_cast (counts pos n path).2 here
      obtain ⟨t, changed⟩ : ∃ t, op.depthAfter n = some t := by
        cases op <;> simp [Op.depthAfter]
        simpa using hen rfl
      refine ⟨t, changed, fun arrival comes => ?_⟩
      obtain ⟨goes, eq⟩ := (mem_arrivalsFrom_iff_goes hu here).mp comes
      rw [eq, (Op.depthAfter_eq_some.mp changed).2]
      exact path.go here goes

/-! ### The check -/

theorem checkLabels_ok_iff :
    method.checkLabels = .ok () ↔ ∀ en ∈ method.labels, en.2 ≤ method.ops.length := by
  refine ⟨fun passes => ?_, method.checkLabels_ok⟩
  unfold checkLabels at passes
  split at passes
  · rename_i none
    simpa using none
  · simp at passes

theorem check_ok_iff : method.check = .ok () ↔
      method.checkOps 0 method.ops = .ok () ∧ method.checkLabels = .ok () ∧
        method.checkScopes = .ok () := by
  unfold check
  cases method.checkOps 0 method.ops with
  | error error => simp [bind, Except.bind]
  | ok u => cases method.checkLabels <;> simp [bind, Except.bind]

theorem isPlaced_iff {l : Label} : method.isPlaced l = true ↔ l ∈ method.labels.map Prod.fst := by
  unfold isPlaced labelOffset
  rw [Option.isSome_iff_ne_none]
  grind

/-- The check of code is exact. It accepts code if and only if every jump goes to a placed label,
every register is there, every label lies in the code, and all paths to a position arrive with one
number of open scopes and never close a scope that is not open. Its walk over the scopes always ends
and never looks for a note outside of its table. -/
theorem check_is_exact (method : Method) (unique : (method.labels.map Prod.fst).Nodup) :
    (method.check = .ok () ↔
      (∀ op ∈ method.ops, ∀ label, op.target? = some label → label ∈ method.labels.map Prod.fst) ∧
      (∀ op ∈ method.ops, ∀ register ∈ op.registers, register.index < method.registers) ∧
      (∀ entry ∈ method.labels, entry.2 ≤ method.ops.length) ∧
      ∃ depths : Nat → Nat, ∀ position scopes, method.Path position scopes →
        scopes = depths position ∧ (method.ops[position]? = some .exit → scopes ≠ 0)) ∧
    WellFounded (fun next walk => method.Leads walk next) ∧
    (method.checkLabels = .ok () → ∀ walk, ReflTransGen method.Leads method.startWalk walk →
      ∀ arrival ∈ walk.pending, arrival.1 < walk.depths.size) := by
  refine ⟨?_, method.wellFounded_leads, fun inside walk leads =>
    (stays_of_leads (checkLabels_ok_iff.mp inside) leads).1.awaits⟩
  have admits : (∀ op ∈ method.ops, method.Admits op) ↔
      (∀ op ∈ method.ops, ∀ label, op.target? = some label → label ∈ method.labels.map Prod.fst) ∧
      (∀ op ∈ method.ops, ∀ register ∈ op.registers, register.index < method.registers) := by
    constructor
    · exact fun admits => ⟨fun op member label aims =>
        isPlaced_iff.mp ((admits op member).target label aims), fun op member =>
        (admits op member).registers⟩
    · exact fun ⟨targets, registers⟩ op member =>
        ⟨fun label aims => isPlaced_iff.mpr (targets op member label aims), registers op member⟩
  rw [check_ok_iff, checkOps_ok_iff, checkLabels_ok_iff, admits, and_assoc]
  refine and_congr_right fun _ => and_congr_right fun _ => and_congr_right fun inside => ?_
  rw [checkScopes_ok_iff inside, exists_consistent_iff unique]

end Method

/-- Code with a loop that control can enter at two places. -/
def crossingMethod : Method where
  name := "m"
  ops := [.enter, .jumpTrue (.register ⟨0⟩) ⟨0, .helper 1⟩, .enter, .exit,
    .jumpTrue (.register ⟨0⟩) ⟨0, .helper 0⟩, .exit, .returnNothing]
  registers := 1
  labels := [(⟨0, .helper 0⟩, 2), (⟨0, .helper 1⟩, 4)]

theorem crossingMethod_is_checked : (crossingMethod.labels.map Prod.fst).Nodup ∧
    crossingMethod.check = .ok () ∧
    ∃ depths : Nat → Nat, ∀ position scopes, crossingMethod.Path position scopes →
      scopes = depths position ∧ (crossingMethod.ops[position]? = some .exit → scopes ≠ 0) := by
  have unique : (crossingMethod.labels.map Prod.fst).Nodup := by decide
  have passes : crossingMethod.check = .ok () := by cbv
  exact ⟨unique, passes, ((crossingMethod.check_is_exact unique).1.mp passes).2.2.2⟩

end TreeCompiler
