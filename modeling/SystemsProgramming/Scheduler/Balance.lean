/-
The balance of the bank as an `int`.  The guard of step 2 keeps a withdrawal from taking more
than there is; nothing keeps a deposit from an overflow, or `abs` from `INT_MIN`.
-/
import SystemsProgramming.Scheduler.Results
import SystemsProgramming.Scheduler.Transactions

namespace SystemsProgramming

namespace Scheduler

/-- The values of an `int`. -/
def IsInt (n : Int) : Prop := -2 ^ 31 ≤ n ∧ n < 2 ^ 31

instance (n : Int) : Decidable (IsInt n) := inferInstanceAs (Decidable (_ ∧ _))

/-- The exact results of the operations in step 2 of `bank_operation`: the addition, or `abs`
in the guard and in the subtraction behind it. -/
def operationResults (balance arg : Int) : List Int :=
  if 0 < arg then [balance + arg]
  else if arg < 0 then
    (arg.natAbs : Int) ::
      if absInt wrapInt arg ≤ balance then [(arg.natAbs : Int), balance - absInt wrapInt arg]
      else []
  else []

/-- The argument with which the step runs step 2 of `bank_operation`. -/
def State.operand (s : State) : Action → Option Int
  | .tick =>
      if s.control = .body then
        s.threads.runningTcb.bind fun tcb =>
          if tcb.environment = .bankOperation .firstYield then some tcb.arg else none
      else none
  | .arrive _ => none

/-- All operations of the step stay in the range of an `int`. -/
def OperationsFit (s : State) (action : Action) : Prop :=
  ∀ arg ∈ s.operand action, ∀ v ∈ operationResults s.threads.balance arg, IsInt v

/-- The argument has an absolute value, and the balance leaves room for it. -/
def LeavesRoom (s : State) (action : Action) : Prop :=
  ∀ arg ∈ s.operand action, arg ≠ -2 ^ 31 ∧ arg ≤ 2 ^ 31 - 1 - s.threads.balance

variable {specs : List Spec} {s t : State} {action : Action} {balance arg : Int}

section Arithmetic

theorem wrapInt_of_isInt {n : Int} (hint : IsInt n) : wrapInt n = n := by
  obtain ⟨hge, hlt⟩ := hint
  rw [wrapInt, Int.bmod_eq_iff (by decide)]
  omega

theorem absInt_of_isInt (hint : IsInt arg) (hmin : arg ≠ -2 ^ 31) :
    IsInt arg.natAbs ∧ absInt wrapInt arg = arg.natAbs := by
  obtain ⟨hge, hlt⟩ := hint
  have hnatAbs : IsInt arg.natAbs := by
    unfold IsInt
    omega
  exact ⟨hnatAbs, by rw [absInt, wrapInt_of_isInt hnatAbs]⟩

/-- With room for the argument the operations fit, and step 2 is that of the sequential bank. -/
theorem transfer_eq_settle (hbalance : 0 ≤ balance ∧ balance < 2 ^ 31) (hint : IsInt arg)
    (hmin : arg ≠ -2 ^ 31) (hroom : arg ≤ 2 ^ 31 - 1 - balance) :
    (∀ v ∈ operationResults balance arg, IsInt v) ∧
      transfer wrapInt balance arg = settle balance arg := by
  obtain ⟨hnatAbs, habs⟩ := absInt_of_isInt hint hmin
  obtain ⟨hge, hlt⟩ := hint
  unfold operationResults transfer settle
  rw [habs]
  by_cases hpos : 0 < arg
  · have hsum : IsInt (balance + arg) := by
      unfold IsInt
      omega
    rw [if_pos hpos, if_pos hpos, if_pos hpos, wrapInt_of_isInt hsum]
    exact ⟨by simpa using hsum, rfl⟩
  · have hneg : (arg.natAbs : Int) = -arg := by omega
    rw [if_neg hpos, if_neg hpos, if_neg hpos, hneg, Int.sub_neg]
    rw [hneg] at hnatAbs
    by_cases hguard : arg < 0 ∧ -arg ≤ balance
    · have hrest : IsInt (balance + arg) := by
        unfold IsInt
        omega
      rw [if_pos hguard, if_pos hguard, if_pos hguard.1, if_pos hguard.2, wrapInt_of_isInt hrest]
      simp only [List.forall_mem_cons]
      exact ⟨⟨hnatAbs, hnatAbs, hrest, by simp⟩, trivial⟩
    · rw [if_neg hguard, if_neg hguard]
      refine ⟨?_, rfl⟩
      by_cases hless : arg < 0
      · rw [if_pos hless, if_neg fun hle => hguard ⟨hless, hle⟩]
        simpa using hnatAbs
      · rw [if_neg hless]
        simp

/-- A withdrawal takes no more than there is, and a deposit adds no more than its argument. -/
theorem settle_bounds (hbalance : 0 ≤ balance) (arg : Int) :
    0 ≤ settle balance arg ∧ settle balance arg ≤ balance + max arg 0 := by
  unfold settle
  split
  · omega
  · split <;> omega

/-- Without it the balance becomes negative. -/
theorem transfer_of_noRoom (hbalance : 0 ≤ balance ∧ balance < 2 ^ 31) (hint : IsInt arg)
    (hnoRoom : ¬ (arg ≠ -2 ^ 31 ∧ arg ≤ 2 ^ 31 - 1 - balance)) :
    transfer wrapInt balance arg < 0 := by
  obtain ⟨hge, hlt⟩ := hint
  unfold transfer
  by_cases hpos : 0 < arg
  · have hwraps : wrapInt (balance + arg) = balance + arg - 2 ^ 32 := by
      rw [wrapInt, Int.bmod_eq_iff (by decide)]
      omega
    rw [if_pos hpos, hwraps]
    omega
  · obtain rfl : arg = -2 ^ 31 := by
      by_contra hmin
      exact hnoRoom ⟨hmin, by omega⟩
    have habs : absInt wrapInt (-2 ^ 31) = -2 ^ 31 := by decide
    have hwraps : wrapInt (balance - -2 ^ 31) = balance - 2 ^ 31 := by
      rw [wrapInt, Int.bmod_eq_iff (by decide)]
      omega
    rw [if_neg hpos, habs, if_pos ⟨by decide, by omega⟩, hwraps]
    omega

end Arithmetic

section Runs

theorem State.tick_of_operand (hoperand : s.operand action = some arg) :
    action = .tick ∧ s.control = .body ∧ ∃ p tcb, s.threads.running = some p ∧
      s.threads.tcbs p = some tcb ∧ tcb.environment = .bankOperation .firstYield ∧
        tcb.arg = arg := by
  cases action with
  | arrive sig => cases hoperand
  | tick =>
      simp only [State.operand] at hoperand
      split at hoperand
      case isFalse => cases hoperand
      case isTrue hbody =>
        obtain ⟨tcb, htcb, henv⟩ := Option.bind_eq_some_iff.mp hoperand
        obtain ⟨p, hrunning, hstored⟩ := Option.bind_eq_some_iff.mp htcb
        split at henv
        case isFalse => cases henv
        case isTrue hpoint =>
          exact ⟨rfl, hbody, p, tcb, hrunning, hstored, hpoint, Option.some.inj henv⟩

/-- The thread at step 2 is one of those that were created. -/
theorem exists_spec_of_operand (hids : ValidIds specs)
    (hreach : (threading wrapInt specs).ReachableBy TakenInYield s)
    (hoperand : s.operand action = some arg) :
    ∃ p tcb, s.threads.tcbs p = some tcb ∧ tcb.environment = .bankOperation .firstYield ∧
      tcb.arg = arg ∧ specs[p]? = some ⟨.bankOperation, tcb.id, arg⟩ := by
  obtain ⟨-, hbody, p, tcb, -, hstored, hpoint, rfl⟩ := State.tick_of_operand hoperand
  refine ⟨p, tcb, hstored, hpoint, rfl, ?_⟩
  rcases reachable_sound hids hreach with ⟨halive, -⟩ | ⟨-, hc | hc⟩
  · have hcreated := halive.core.books.created p tcb hstored
    rwa [hpoint] at hcreated
  · cases hbody.symm.trans hc
  · cases hbody.symm.trans hc

/-- The step is enabled and makes the transfer. -/
theorem exists_stretch_of_operand (hoperand : s.operand action = some arg) :
    ∃ t, s.step wrapInt action = some t ∧
      t.threads.balance = transfer wrapInt s.threads.balance arg := by
  obtain ⟨rfl, hbody, p, tcb, hrunning, hstored, hpoint, rfl⟩ := State.tick_of_operand hoperand
  let next := s.threads.bankOperation wrapInt p tcb .firstYield
  have hsegment : s.threads.segment wrapInt = some next := by
    rw [Threads.segment, hrunning, Option.bind_some, hstored, Option.map_some, hpoint]
  have hbalance := (Threads.segment_output hsegment hrunning hstored).2
  rw [Threads.balanceAfter, if_pos hpoint] at hbalance
  refine ⟨{ s with threads := next.1, control := next.2 }, ?_, hbalance⟩
  simp only [State.step, State.tick, hbody, hsegment, Option.map_some]

theorem isInt_of_operand (hids : ValidIds specs) (hints : ∀ spec ∈ specs, IsInt spec.arg)
    (hreach : (threading wrapInt specs).ReachableBy TakenInYield s)
    (hoperand : s.operand action = some arg) : IsInt arg := by
  obtain ⟨p, tcb, -, -, -, hspec⟩ := exists_spec_of_operand hids hreach hoperand
  exact hints _ (List.mem_of_getElem? hspec)

/-- The balance is an `int` that is not negative. -/
def InRange (s : State) : Prop := 0 ≤ s.threads.balance ∧ s.threads.balance < 2 ^ 31

/-- A step with room keeps the balance in range. -/
theorem InRange.step (hrange : InRange s) (hids : ValidIds specs)
    (hints : ∀ spec ∈ specs, IsInt spec.arg)
    (hreach : (threading wrapInt specs).ReachableBy TakenInYield s)
    (hroom : LeavesRoom s action) (hstep : s.step wrapInt action = some t) : InRange t := by
  cases hoperand : s.operand action with
  | some arg =>
      obtain ⟨t', hstep', hbalance⟩ := exists_stretch_of_operand hoperand
      obtain rfl : t = t' := Option.some.inj (hstep.symm.trans hstep')
      obtain ⟨hmin, hroom⟩ := hroom arg hoperand
      have hint := isInt_of_operand hids hints hreach hoperand
      have hsettle := (transfer_eq_settle hrange hint hmin hroom).2
      have hbounds := settle_bounds hrange.1 arg
      have hlt := hrange.2
      rw [InRange, hbalance, hsettle]
      omega
  | none =>
      have hsame : t.threads.balance = s.threads.balance := by
        rcases step_stretch hids hreach hstep with
          ⟨-, -, rfl, p, tcb, tcb', hstretch⟩ | ⟨-, hquiet⟩
        · rw [hstretch.balance, Threads.balanceAfter, if_neg]
          intro hpoint
          simp [State.operand, hstretch.body, Threads.runningTcb, hstretch.segment.running,
            hstretch.segment.stored, hpoint] at hoperand
        · exact hquiet.balance
      rw [InRange, hsame]
      exact hrange

/-- A step without room leaves a negative balance. -/
theorem InRange.broken (hrange : InRange s) (hids : ValidIds specs)
    (hints : ∀ spec ∈ specs, IsInt spec.arg)
    (hreach : (threading wrapInt specs).ReachableBy TakenInYield s)
    (hnoRoom : ¬ LeavesRoom s action) :
    ∃ t, s.step wrapInt action = some t ∧ ¬ 0 ≤ t.threads.balance := by
  simp only [LeavesRoom, not_forall] at hnoRoom
  obtain ⟨arg, hoperand, hnoRoom⟩ := hnoRoom
  obtain ⟨t, hstep, hbalance⟩ := exists_stretch_of_operand hoperand
  refine ⟨t, hstep, ?_⟩
  have hint := isInt_of_operand hids hints hreach hoperand
  rw [hbalance]
  exact not_le.mpr (transfer_of_noRoom hrange hint hnoRoom)

/-- The operations of a step with room fit. -/
theorem InRange.operationsFit (hrange : InRange s) (hids : ValidIds specs)
    (hints : ∀ spec ∈ specs, IsInt spec.arg)
    (hreach : (threading wrapInt specs).ReachableBy TakenInYield s)
    (hroom : LeavesRoom s action) : OperationsFit s action := by
  intro arg hoperand
  obtain ⟨hmin, hroom⟩ := hroom arg hoperand
  have hint := isInt_of_operand hids hints hreach hoperand
  exact (transfer_eq_settle hrange hint hmin hroom).1

/-- In every run the balance stays non-negative and no operation overflows exactly if each
transfer finds room for its argument. -/
theorem staysInRange_iff (hids : ValidIds specs) (hints : ∀ spec ∈ specs, IsInt spec.arg)
    {actions : List Action}
    (htaken : (threading wrapInt specs).Meets TakenInYield (State.init specs) actions) :
    ((threading wrapInt specs).Along (fun s => 0 ≤ s.threads.balance) (State.init specs) actions ∧
        (threading wrapInt specs).Meets OperationsFit (State.init specs) actions) ↔
      (threading wrapInt specs).Meets LeavesRoom (State.init specs) actions := by
  let inv : State → Prop := fun s =>
    (threading wrapInt specs).ReachableBy TakenInYield s ∧ InRange s
  have hstart : inv (State.init specs) := by
    refine ⟨.start rfl, ?_⟩
    rw [InRange, (init_output specs).2]
    decide
  have hkept : ∀ s action t, inv s → TakenInYield s action → LeavesRoom s action →
      (threading wrapInt specs).step s action = some t → inv t :=
    fun s action t hinv htaken hroom hstep => ⟨.step hinv.1 htaken hstep,
      hinv.2.step hids hints hinv.1 hroom hstep⟩
  have hnonneg : (threading wrapInt specs).Along (fun s => 0 ≤ s.threads.balance)
      (State.init specs) actions ↔
        (threading wrapInt specs).Meets LeavesRoom (State.init specs) actions :=
    TransitionSystem.along_iff_meets (fun s hinv => hinv.2.1) hkept
      (fun s action hinv _ hnoRoom => hinv.2.broken hids hints hinv.1 hnoRoom) hstart actions htaken
  constructor
  · rintro ⟨halong, -⟩
    exact hnonneg.mp halong
  · intro hroom
    refine ⟨hnonneg.mpr hroom, (htaken.and hroom).imp ?_ ?_ hstart⟩
    · exact fun s action t hinv hok hstep => hkept s action t hinv hok.1 hok.2 hstep
    · exact fun s action hinv hok => hinv.2.operationsFit hids hints hinv.1 hok.2

end Runs

section Arguments

/-- What a bank operation with this argument may add to the balance. -/
def Spec.deposit (spec : Spec) : Int := if spec.func = .bankOperation then max spec.arg 0 else 0

/-- The places of a bank operation in front of its transfer. -/
def Environment.isUnpaid : Environment → Bool
  | bankOperation .setup | bankOperation .lock | bankOperation .firstYield => true
  | _ => false

/-- What the thread may still add. -/
def Threads.depositOf (th : Threads) (p : Nat) : Int :=
  match th.tcbs p with
  | some tcb => if tcb.environment.isUnpaid then max tcb.arg 0 else 0
  | none => 0

def Threads.deposits (specs : List Spec) (th : Threads) : Int :=
  ∑ p ∈ Finset.range specs.length, th.depositOf p

/-- The balance and all that may still be added to it are an `int`. -/
def Funded (specs : List Spec) (th : Threads) : Prop :=
  th.balance + th.deposits specs ≤ 2 ^ 31 - 1

variable {th th' : Threads} {p : Nat} {tcb tcb' : Tcb}

theorem Threads.depositOf_stored (hstored : th.tcbs p = some tcb) :
    th.depositOf p = if tcb.environment.isUnpaid then max tcb.arg 0 else 0 := by
  rw [depositOf, hstored]

theorem Threads.depositOf_nonneg (th : Threads) (p : Nat) : 0 ≤ th.depositOf p := by
  unfold depositOf
  split
  · split
    · exact le_max_right _ _
    · exact Int.le_refl 0
  · exact Int.le_refl 0

theorem Threads.depositOf_le_deposits (hp : p < specs.length) :
    th.depositOf p ≤ th.deposits specs :=
  Finset.single_le_sum (fun q _ => th.depositOf_nonneg q) (Finset.mem_range.mpr hp)

theorem Funded.room (hfunded : Funded specs th) (hp : p < specs.length)
    (hstored : th.tcbs p = some tcb) (hunpaid : tcb.environment.isUnpaid = true) :
    tcb.arg ≤ 2 ^ 31 - 1 - th.balance := by
  have hle : th.depositOf p ≤ th.deposits specs := Threads.depositOf_le_deposits hp
  rw [Threads.depositOf_stored hstored, if_pos hunpaid] at hle
  unfold Funded at hfunded
  omega

theorem Threads.Quiet.funded (hquiet : Quiet th th') (hfunded : Funded specs th) :
    Funded specs th' := by
  have hle : th'.deposits specs ≤ th.deposits specs := by
    apply Finset.sum_le_sum
    intro p _
    cases hstored : th'.tcbs p with
    | none =>
        rw [depositOf, hstored]
        exact th.depositOf_nonneg p
    | some tcb =>
        rw [depositOf_stored hstored, depositOf_stored (hquiet.stored p tcb hstored)]
  unfold Funded at hfunded ⊢
  rw [hquiet.balance]
  omega

/-- No stretch comes back in front of the transfer, and the one with the transfer is behind. -/
theorem Ends.paid {id owner owner' : Int} {environment later : Environment} {c : Control}
    (hends : Ends id owner environment later owner' c) :
    (later.isUnpaid = true → environment.isUnpaid = true) ∧
      (environment = .bankOperation .firstYield → later.isUnpaid = false) := by
  have hloop : ∀ {e : Environment}, e.func ≠ .bankOperation → e.isUnpaid = false := by
    intro e hfunc
    cases e with
    | fibonacci point | factorial point => rfl
    | bankOperation point => exact absurd rfl hfunc
  have hkept : later.func = environment.func := hends.func_eq
  cases hends with
  | round hfunc | last hfunc =>
      have hlater := hloop fun h => hfunc (hkept.symm.trans h)
      exact ⟨fun h => by simp [hlater] at h, fun _ => hlater⟩
  | acquire | block | granted | transfer | release =>
      exact ⟨by simp [Environment.isUnpaid], by simp [Environment.isUnpaid]⟩

/-- A stretch takes what it adds to the balance from what its thread may still add. -/
theorem Stretch.balance_depositOf_le (hstretch : Stretch wrapInt s t p tcb tcb')
    (hrange : InRange s) (hint : IsInt tcb.arg)
    (hleaves : tcb.environment = .bankOperation .firstYield →
      tcb.arg ≠ -2 ^ 31 ∧ tcb.arg ≤ 2 ^ 31 - 1 - s.threads.balance) :
    t.threads.balance + t.threads.depositOf p ≤ s.threads.balance + s.threads.depositOf p := by
  obtain ⟨hcomes, hpays⟩ := hstretch.segment.ends.paid
  have hnow : t.threads.tcbs p = some tcb' := by
    rw [hstretch.segment.tcbs, Function.update_self]
  rw [Threads.depositOf_stored hstretch.segment.stored, Threads.depositOf_stored hnow,
    hstretch.balance, Threads.balanceAfter, hstretch.segment.same.2]
  by_cases hpoint : tcb.environment = .bankOperation .firstYield
  · have hunpaid : tcb.environment.isUnpaid = true := by rw [hpoint]; rfl
    obtain ⟨hne, hroom⟩ := hleaves hpoint
    have hsettle := (transfer_eq_settle hrange hint hne hroom).2
    have hbounds := settle_bounds hrange.1 tcb.arg
    rw [if_pos hpoint, if_pos hunpaid, if_neg (by simp [hpays hpoint]), hsettle, Int.add_zero]
    exact hbounds.2
  · rw [if_neg hpoint]
    by_cases hlater : tcb'.environment.isUnpaid = true
    · rw [if_pos hlater, if_pos (hcomes hlater)]
    · rw [if_neg hlater]
      split <;> omega

theorem Stretch.funded (hstretch : Stretch wrapInt s t p tcb tcb') (hp : p < specs.length)
    (hrange : InRange s) (hint : IsInt tcb.arg)
    (hmin : tcb.environment.func = .bankOperation → tcb.arg ≠ -2 ^ 31)
    (hfunded : Funded specs s.threads) : Funded specs t.threads := by
  have hmem := Finset.mem_range.mpr hp
  have hothers : ∑ q ∈ (Finset.range specs.length).erase p, t.threads.depositOf q =
      ∑ q ∈ (Finset.range specs.length).erase p, s.threads.depositOf q := by
    apply Finset.sum_congr rfl
    intro q hq
    rw [Threads.depositOf, hstretch.segment.tcbs, Function.update_of_ne (Finset.ne_of_mem_erase hq)]
    rfl
  have hbefore := Finset.add_sum_erase _ s.threads.depositOf hmem
  have hafter := Finset.add_sum_erase _ t.threads.depositOf hmem
  have hown := hstretch.balance_depositOf_le hrange hint fun hpoint =>
    ⟨hmin (by rw [hpoint]; rfl),
      hfunded.room hp hstretch.segment.stored (by rw [hpoint]; rfl)⟩
  unfold Funded Threads.deposits at hfunded ⊢
  omega

theorem init_deposits (specs : List Spec) :
    (State.init specs).threads.deposits specs = (specs.map Spec.deposit).sum := by
  obtain ⟨-, -, htcbs, -⟩ := Threads.foldl_threadCreate specs
  change ∀ p, (State.init specs).threads.tcbs p = _ at htcbs
  rw [Threads.deposits, Finset.sum_range, ← Fin.sum_univ_fun_getElem]
  apply Finset.sum_congr rfl
  intro p _
  have hstored := htcbs p
  rw [List.getElem?_eq_getElem p.isLt, Option.map_some] at hstored
  rw [Threads.depositOf_stored hstored, Spec.deposit]
  cases specs[p].func <;> simp [Func.start, Environment.isUnpaid]

/-- Where the arguments of the bank operations have absolute values and fit together, every
transfer of every run finds room. -/
theorem leavesRoom_of_args (hids : ValidIds specs) (hints : ∀ spec ∈ specs, IsInt spec.arg)
    (hmin : ∀ spec ∈ specs, spec.func = .bankOperation → spec.arg ≠ -2 ^ 31)
    (hsum : 500 + (specs.map Spec.deposit).sum ≤ 2 ^ 31 - 1) {actions : List Action}
    (htaken : (threading wrapInt specs).Meets TakenInYield (State.init specs) actions) :
    (threading wrapInt specs).Meets LeavesRoom (State.init specs) actions := by
  let inv : State → Prop := fun s =>
    (threading wrapInt specs).ReachableBy TakenInYield s ∧ InRange s ∧ Funded specs s.threads
  have hroom : ∀ s action, inv s → TakenInYield s action → LeavesRoom s action := by
    rintro s action ⟨hreach, -, hfunded⟩ - arg hoperand
    obtain ⟨p, tcb, hstored, hpoint, rfl, hspec⟩ := exists_spec_of_operand hids hreach hoperand
    have hmem := List.mem_of_getElem? hspec
    have hp := (List.getElem?_eq_some_iff.mp hspec).1
    exact ⟨hmin _ hmem rfl, hfunded.room hp hstored (by rw [hpoint]; rfl)⟩
  have hstart : inv (State.init specs) := by
    refine ⟨.start rfl, ?_, ?_⟩
    · rw [InRange, (init_output specs).2]
      decide
    · rw [Funded, init_deposits, (init_output specs).2]
      exact hsum
  refine htaken.imp (fun s action t hinv htaken hstep => ?_) hroom hstart
  obtain ⟨hreach, hrange, hfunded⟩ := hinv
  have hleaves := hroom s action ⟨hreach, hrange, hfunded⟩ htaken
  refine ⟨.step hreach htaken hstep, hrange.step hids hints hreach hleaves hstep, ?_⟩
  rcases step_stretch hids hreach hstep with
    ⟨halive, -, -, p, tcb, tcb', hstretch⟩ | ⟨-, hquiet⟩
  · obtain ⟨hp, -, hspec⟩ := halive.stretch_live hstretch
    have hmem := List.mem_of_getElem? hspec
    exact hstretch.funded hp hrange (hints _ hmem) (hmin _ hmem) hfunded
  · exact hquiet.funded hfunded

end Arguments

theorem staysInRange_iff_two_bank_threads :
    (threading wrapInt TwoBankThreads.threads).Along (fun s => 0 ≤ s.threads.balance)
        (State.init TwoBankThreads.threads) TwoBankThreads.released ∧
      (threading wrapInt TwoBankThreads.threads).Meets OperationsFit
        (State.init TwoBankThreads.threads) TwoBankThreads.released := by
  have htaken : (threading wrapInt TwoBankThreads.threads).Meets TakenInYield
      (State.init TwoBankThreads.threads) TwoBankThreads.released :=
    ⟨fun hmask => absurd hmask (by decide), fun next _ => meets_ticks next 17⟩
  have hids : ValidIds TwoBankThreads.threads := ⟨by decide, by decide⟩
  have hints : ∀ spec ∈ TwoBankThreads.threads, IsInt spec.arg := by decide
  exact (staysInRange_iff hids hints htaken).mpr
    (leavesRoom_of_args hids hints (by decide) (by decide) htaken)

namespace MaxDeposit

/-- A single thread that deposits `INT_MAX`. -/
def threads : List Spec := initThreads 0 0 2147483647 0

/-- The run goes on until its transfer. -/
def transferred : List Action := List.replicate 8 .tick

def state : State :=
  ((threading wrapInt threads).run (State.init threads) transferred).getD (State.init threads)

/-- 500 and `INT_MAX` wrap around. -/
example : state.threads.balance = -2147483149 := by decide

end MaxDeposit

/-- A deposit of `INT_MAX` leaves a negative balance. -/
theorem deposit_overflows :
    ¬ ∀ specs : List Spec, ValidIds specs →
      (∀ spec ∈ specs, spec.func = .bankOperation ∧ spec.arg ≠ 0 ∧ IsInt spec.arg) →
      ∀ actions : List Action,
        (threading wrapInt specs).Meets TakenInYield (State.init specs) actions →
        (threading wrapInt specs).Along (fun s => 0 ≤ s.threads.balance)
            (State.init specs) actions ∧
          (threading wrapInt specs).Meets OperationsFit (State.init specs) actions := by
  intro hall
  obtain ⟨halong, -⟩ := hall MaxDeposit.threads ⟨by decide, by decide⟩ (by decide)
    MaxDeposit.transferred (meets_ticks _ 8)
  have hrun : (threading wrapInt MaxDeposit.threads).run (State.init MaxDeposit.threads)
      MaxDeposit.transferred = some MaxDeposit.state := rfl
  have hnonneg : 0 ≤ MaxDeposit.state.threads.balance := halong.last hrun
  exact absurd hnonneg (by decide)

end Scheduler

end SystemsProgramming
