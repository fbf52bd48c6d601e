import PutValidator.ProgramRuntime.InvokeContext
import PutValidator.Lib.EState

/-! The invocation stack under early verification of account modifications, as the source leaves
it after every call of `InvokeContext::push` and `pop` (`program-runtime/src/invoke_context.rs`,
`sdk/src/transaction_context.rs`), whatever the call returned: a push refused for depth has
already taken its entry of the trace, and a pop removes the frame even when it reports that the
frame's lamports do not balance. The accounts are `RefCell`s here: each call reads the state of
every cell as it finds it (`BorrowState`), and a borrow that fails is an error, or, in the
reentrancy check, a level that does not count. Between the calls, programs move lamports between
the accounts of the running frame.

What holds over every run: the stack and the trace stay within their capacities, the frames
below the top are never touched, and each frame keeps the lamport sum its accounts had when it
was pushed. What each call decides: a push is refused for reentrancy, for depth, for the trace's
length, or when the caller's lamports no longer balance; a pop returns `Ok` exactly when the
frame's program accounts are free and its lamports balance. -/
namespace PutValidator

open Lib.EState

/-- The state of an account's `RefCell`: free, borrowed by readers, or borrowed by a writer. -/
inductive BorrowState
  | unused
  | shared
  | exclusive
deriving DecidableEq, Repr

namespace BorrowState

/-- `try_borrow` fails only on a cell borrowed by a writer. -/
def canBorrow : BorrowState → Bool
  | exclusive => false
  | _ => true

/-- `try_borrow_mut` fails on a cell borrowed at all. -/
def canBorrowMut : BorrowState → Bool
  | unused => true
  | _ => false

end BorrowState

/-- The cells of the transaction's accounts, by index in the transaction. -/
abbrev AccountCells := Nat → BorrowState

/-- The computations of the invocation stack on the transaction. -/
abbrev TransactionContextM := EStateM InstructionError TransactionContext

namespace TransactionContext

variable (tc : TransactionContext) (cells : AccountCells)

/-- `instruction_accounts_lamport_sum`, with the `try_borrow` of each account it reads. -/
def instructionAccountsLamportSumIn (ic : InstructionContext) : Except InstructionError Nat :=
  if !tc.isEarlyVerificationOfAccountModificationsEnabled then pure 0
  else
    List.foldlM (fun sum index => do
        match ← ic.isInstructionAccountDuplicate index with
        | some _ => pure sum
        | none =>
            let indexInTransaction ← ic.getIndexOfInstructionAccountInTransaction index
            let account ← tc.getAccountAtIndex indexInTransaction
            Lib.Except.failIf (!(cells indexInTransaction).canBorrow) .accountBorrowOutstanding
            Lib.Except.okOr (Lib.Word.checkedAdd 128 account.lamports sum) .arithmeticOverflow)
      0 (List.range ic.getNumberOfInstructionAccounts)

/-- The frame configured in the trace for the next instruction, with the nesting level and the
lamport sum `push` writes into it. -/
def pushedFrame (next : InstructionContext) (sum : Nat) : InstructionContext :=
  { next with nestingLevel := tc.getInstructionContextStackHeight
              instructionAccountsLamportSum := sum }

end TransactionContext

namespace TransactionContext

/-- The check of `push` on the caller: with early verification, the lamports of the running
frame's accounts must be those it was pushed with. -/
def checkCallerBalanced (tc : TransactionContext) (cells : AccountCells) :
    Except InstructionError Unit :=
  if !tc.instructionStack.isEmpty && tc.isEarlyVerificationOfAccountModificationsEnabled then do
    let caller ← tc.getCurrentInstructionContext
    let current ← tc.instructionAccountsLamportSumIn cells caller
    Lib.Except.failIf (caller.instructionAccountsLamportSum ≠ current) .unbalancedInstruction
  else pure ()

/-- `TransactionContext::push` of the configured context `next`, on the transaction. -/
def pushIn (cells : AccountCells) (next : InstructionContext) : TransactionContextM Unit := do
  let tc ← get
  let nestingLevel := tc.getInstructionContextStackHeight
  let calleeInstructionAccountsLamportSum ← liftExcept (tc.instructionAccountsLamportSumIn cells next)
  liftExcept (tc.checkCallerBalanced cells)
  let indexInTrace := tc.instructionTraceLength
  failIf (tc.instructionTraceCapacity ≤ indexInTrace) .maxInstructionTraceLengthExceeded
  -- the trace takes the entry before the depth is checked
  modify fun tc => { tc with instructionTraceLength := indexInTrace + 1 }
  failIf (tc.instructionStackCapacity ≤ nestingLevel) .callDepth
  modify fun tc' => { tc' with
    instructionStack := tc'.instructionStack ++
      [tc.pushedFrame next calleeInstructionAccountsLamportSum] }

/-- The check of `pop` before it pops: each program account of the frame can be borrowed by a
writer, and the frame's lamports are those it was pushed with. -/
def detectUnbalancedInstruction (tc : TransactionContext) (cells : AccountCells) :
    Except InstructionError Bool :=
  if tc.isEarlyVerificationOfAccountModificationsEnabled then do
    let ic ← tc.getCurrentInstructionContext
    ic.programAccounts.forM fun accountIndex => do
      let _ ← tc.getAccountAtIndex accountIndex
      Lib.Except.failIf (!(cells accountIndex).canBorrowMut) .accountBorrowOutstanding
    let sum ← tc.instructionAccountsLamportSumIn cells ic
    pure (decide (ic.instructionAccountsLamportSum ≠ sum))
  else pure false

/-- `TransactionContext::pop`, on the transaction: the frame goes whatever the check found. -/
def popIn (cells : AccountCells) : TransactionContextM Unit := do
  let tc ← get
  failIf (tc.instructionStack.isEmpty = true) .callDepth
  let detectedAnUnbalancedInstruction := tc.detectUnbalancedInstruction cells
  -- always pop, even if the check failed
  modify fun tc => { tc with instructionStack := tc.instructionStack.dropLast }
  let detected ← liftExcept detectedAnUnbalancedInstruction
  failIf (detected = true) .unbalancedInstruction

end TransactionContext

namespace ProgramRuntime

/-- Whether the last program account of a frame has the key `programId`, where it can be
borrowed by a writer: the closure of the reentrancy check, a failed borrow counting as
`false`. -/
def lastProgramIsIn (tc : TransactionContext) (cells : AccountCells) (programId : Pubkey)
    (ic : Except InstructionError InstructionContext) : Bool :=
  match ic >>= (·.tryBorrowLastProgramAccount tc) with
  | .ok programAccount =>
      (cells programAccount.indexInTransaction).canBorrowMut && programAccount.getKey == programId
  | .error _ => false

/-- The reentrancy check of `InvokeContext::push` for the program `programId`: a program that a
level of the stack runs may be pushed only from the top level. -/
def checkReentrancy (tc : TransactionContext) (cells : AccountCells) (programId : Pubkey) :
    Except InstructionError Unit :=
  if tc.getInstructionContextStackHeight ≠ 0 then
    let contains := (List.range tc.getInstructionContextStackHeight).any fun level =>
      lastProgramIsIn tc cells programId (tc.getInstructionContextAtNestingLevel level)
    let isLast := lastProgramIsIn tc cells programId tc.getCurrentInstructionContext
    Lib.Except.failIf ((contains && !isLast) = true) .reentrancyNotAllowed
  else pure ()

/-- `InvokeContext::push`, on the transaction. -/
def InvokeContext.pushIn (cells : AccountCells) (next : InstructionContext) :
    TransactionContextM Unit := do
  let tc ← get
  let programId ← liftExcept ((next.getLastProgramKey tc).mapError fun _ => InstructionError.unsupportedProgramId)
  liftExcept (checkReentrancy tc cells programId)
  TransactionContext.pushIn cells next

/-- `InvokeContext::pop`: the syscall contexts and their logs are not modelled. -/
def InvokeContext.popIn (cells : AccountCells) : TransactionContextM Unit :=
  TransactionContext.popIn cells

end ProgramRuntime

/-! ### What one call does -/

namespace TransactionContext

/-- The transaction with `frame` pushed and its entry taken in the trace. -/
def pushed (tc : TransactionContext) (frame : InstructionContext) : TransactionContext :=
  { tc with instructionStack := tc.instructionStack ++ [frame]
            instructionTraceLength := tc.instructionTraceLength + 1 }

/-- The transaction with the current frame popped. -/
def popped (tc : TransactionContext) : TransactionContext :=
  { tc with instructionStack := tc.instructionStack.dropLast }

variable {tc : TransactionContext} {cells : AccountCells} {next : InstructionContext}

/-- The spec of `push`: the first check that fails, or the frame pushed. -/
theorem pushIn_run (cells : AccountCells) (next : InstructionContext) (tc : TransactionContext) :
    (pushIn cells next).run tc =
      match tc.instructionAccountsLamportSumIn cells next, tc.checkCallerBalanced cells with
      | .error e, _ => .error e tc
      | .ok _, .error e => .error e tc
      | .ok sum, .ok () =>
          if tc.instructionTraceCapacity ≤ tc.instructionTraceLength then
            .error .maxInstructionTraceLengthExceeded tc
          else if tc.instructionStackCapacity ≤ tc.getInstructionContextStackHeight then
            .error .callDepth { tc with instructionTraceLength := tc.instructionTraceLength + 1 }
          else .ok () (tc.pushed (tc.pushedFrame next sum)) := by
  rcases hSum : tc.instructionAccountsLamportSumIn cells next with e | sum
  · simp only [pushIn, hSum, run_get_bind, run_liftExcept_error_bind]
  · rcases hCheck : tc.checkCallerBalanced cells with e | ⟨⟩
    · simp only [pushIn, hSum, hCheck, run_get_bind, run_liftExcept_ok_bind,
        run_liftExcept_error_bind]
    · simp only [pushIn, hSum, hCheck, run_get_bind, run_liftExcept_ok_bind, run_failIf_bind,
        run_modify_bind, run_modify]
      split_ifs <;> rfl

/-- The spec of `pop`: on a stack with a frame, the frame goes whatever the check found. -/
theorem popIn_run (cells : AccountCells) (tc : TransactionContext) :
    (popIn cells).run tc =
      if tc.instructionStack.isEmpty = true then .error .callDepth tc
      else match tc.detectUnbalancedInstruction cells with
        | .error e => .error e tc.popped
        | .ok true => .error .unbalancedInstruction tc.popped
        | .ok false => .ok () tc.popped := by
  by_cases hEmpty : tc.instructionStack.isEmpty = true
  · simp only [popIn, hEmpty, run_get_bind, run_failIf_bind, if_true]
  · rcases hDetect : tc.detectUnbalancedInstruction cells with e | detected
    · simp only [popIn, hEmpty, hDetect, run_get_bind, run_failIf_bind, run_modify_bind,
        run_liftExcept_error_bind]
      rfl
    · cases detected <;>
        simp only [popIn, hEmpty, hDetect, run_get_bind, run_failIf_bind, if_false, if_true,
          run_modify_bind, run_liftExcept_ok_bind, run_failIf, Bool.false_eq_true] <;> rfl

end TransactionContext

namespace ProgramRuntime

/-- The spec of `InvokeContext::push`: the program's key and the reentrancy check, then
`TransactionContext::push`. -/
theorem InvokeContext.pushIn_run (cells : AccountCells) (next : InstructionContext)
    (tc : TransactionContext) :
    (InvokeContext.pushIn cells next).run tc =
      match next.getLastProgramKey tc with
      | .error _ => .error .unsupportedProgramId tc
      | .ok programId =>
          match checkReentrancy tc cells programId with
          | .error e => .error e tc
          | .ok () => (TransactionContext.pushIn cells next).run tc := by
  rcases hKey : next.getLastProgramKey tc with e | programId
  · simp only [InvokeContext.pushIn, hKey, Except.mapError, run_get_bind,
      run_liftExcept_error_bind]
  · rcases hCheck : checkReentrancy tc cells programId with e | ⟨⟩
    · simp only [InvokeContext.pushIn, hKey, hCheck, Except.mapError, run_get_bind,
        run_liftExcept_ok_bind, run_liftExcept_error_bind]
    · simp only [InvokeContext.pushIn, hKey, hCheck, Except.mapError, run_get_bind,
        run_liftExcept_ok_bind]

/-- What `InvokeContext::push` leaves: the transaction as it was, or what the push of the
transaction leaves. -/
theorem InvokeContext.pushIn_state (cells : AccountCells) (next : InstructionContext)
    (tc : TransactionContext) :
    state ((InvokeContext.pushIn cells next).run tc) = tc ∨
      state ((InvokeContext.pushIn cells next).run tc) =
        state ((TransactionContext.pushIn cells next).run tc) := by
  rw [InvokeContext.pushIn_run]
  rcases next.getLastProgramKey tc with e | programId
  · exact .inl rfl
  dsimp only
  rcases checkReentrancy tc cells programId with e | ⟨⟩
  · exact .inl rfl
  · exact .inr rfl

end ProgramRuntime

/-! ### Within the capacities -/

namespace TransactionContext

/-- The stack and the trace within their capacities. -/
def WithinCapacity (tc : TransactionContext) : Prop :=
  tc.instructionStack.length ≤ tc.instructionStackCapacity ∧
    tc.instructionTraceLength ≤ tc.instructionTraceCapacity

variable {tc : TransactionContext}

/-- What a push leaves, whatever it returns: the transaction as it was, the trace's entry taken
where the trace had room, or the configured frame pushed where both had room. -/
theorem pushIn_state (cells : AccountCells) (next : InstructionContext) :
    state ((pushIn cells next).run tc) = tc ∨
      (tc.instructionTraceLength < tc.instructionTraceCapacity ∧
        state ((pushIn cells next).run tc) =
          { tc with instructionTraceLength := tc.instructionTraceLength + 1 }) ∨
      (tc.instructionTraceLength < tc.instructionTraceCapacity ∧
        tc.getInstructionContextStackHeight < tc.instructionStackCapacity ∧
        ∃ sum, tc.instructionAccountsLamportSumIn cells next = .ok sum ∧
          state ((pushIn cells next).run tc) = tc.pushed (tc.pushedFrame next sum)) := by
  rw [pushIn_run]
  rcases hSum : tc.instructionAccountsLamportSumIn cells next with e | sum
  · exact .inl rfl
  rcases tc.checkCallerBalanced cells with e | ⟨⟩
  · exact .inl rfl
  dsimp only
  split_ifs with hTraceFull hStackFull
  · exact .inl rfl
  · exact .inr (.inl ⟨Nat.lt_of_not_le hTraceFull, rfl⟩)
  · exact .inr (.inr ⟨Nat.lt_of_not_le hTraceFull, Nat.lt_of_not_le hStackFull, sum, rfl, rfl⟩)

/-- A push refused for depth has taken its entry of the trace, within the trace's capacity; a
push that returned took one place of each. -/
theorem WithinCapacity.pushIn (h : tc.WithinCapacity) (cells : AccountCells)
    (next : InstructionContext) : (state ((pushIn cells next).run tc)).WithinCapacity := by
  obtain ⟨hStack, hTrace⟩ := h
  rcases pushIn_state cells next with hSame | ⟨hRoom, hTaken⟩ | ⟨hRoom, hHeight, sum, -, hPushed⟩
  · rw [hSame]
    exact ⟨hStack, hTrace⟩
  · rw [hTaken]
    exact ⟨hStack, Nat.succ_le_of_lt hRoom⟩
  · rw [hPushed]
    simp only [pushed, WithinCapacity, List.length_append, List.length_singleton]
    simp only [getInstructionContextStackHeight] at hHeight
    omega

theorem WithinCapacity.popIn (h : tc.WithinCapacity) (cells : AccountCells) :
    (state ((popIn cells).run tc)).WithinCapacity := by
  obtain ⟨hStack, hTrace⟩ := h
  have hPopped : tc.popped.WithinCapacity := by
    refine ⟨?_, hTrace⟩
    simp only [popped, List.length_dropLast]
    omega
  rw [popIn_run]
  split_ifs
  · exact ⟨hStack, hTrace⟩
  · rcases tc.detectUnbalancedInstruction cells with e | detected
    · exact hPopped
    · cases detected <;> exact hPopped

end TransactionContext

/-! ### Runs of calls -/

namespace TransactionContext

/-- Between the calls, the running program moves `amount` lamports from one of its instruction
accounts to another, as `checked_sub_lamports` and `checked_add_lamports` on the two borrowed
accounts do; the checks come first. -/
def transferLamports (source destination amount : Nat) : TransactionContextM Unit := do
  let tc ← get
  let ic ← liftExcept tc.getCurrentInstructionContext
  let source ← liftExcept (ic.getIndexOfInstructionAccountInTransaction source)
  let destination ← liftExcept (ic.getIndexOfInstructionAccountInTransaction destination)
  let sourceAccount ← liftExcept (tc.getAccountAtIndex source)
  let destinationAccount ← liftExcept (tc.getAccountAtIndex destination)
  failIf (sourceAccount.lamports < amount) .arithmeticOverflow
  failIf (Lib.Word.maxValue 128 < destinationAccount.lamports + amount) .arithmeticOverflow
  modify fun tc => { tc with
    accounts := (tc.accounts.set source { sourceAccount with lamports := sourceAccount.lamports - amount }).set
      destination { destinationAccount with lamports := destinationAccount.lamports + amount } }

/-- A transfer changes the accounts only. -/
theorem transferLamports_state (source destination amount : Nat) (tc : TransactionContext) :
    ∃ accounts, state ((transferLamports source destination amount).run tc) = { tc with accounts } := by
  simp only [transferLamports, run_get_bind]
  -- every check that fails leaves the transaction as it was
  rcases tc.getCurrentInstructionContext with e | ic
  · exact ⟨tc.accounts, rfl⟩
  simp only [run_liftExcept_ok_bind]
  rcases ic.getIndexOfInstructionAccountInTransaction source with e | source
  · exact ⟨tc.accounts, rfl⟩
  simp only [run_liftExcept_ok_bind]
  rcases ic.getIndexOfInstructionAccountInTransaction destination with e | destination
  · exact ⟨tc.accounts, rfl⟩
  simp only [run_liftExcept_ok_bind]
  rcases tc.getAccountAtIndex source with e | sourceAccount
  · exact ⟨tc.accounts, rfl⟩
  simp only [run_liftExcept_ok_bind]
  rcases tc.getAccountAtIndex destination with e | destinationAccount
  · exact ⟨tc.accounts, rfl⟩
  simp only [run_liftExcept_ok_bind, run_failIf_bind, run_modify]
  split_ifs
  · exact ⟨tc.accounts, rfl⟩
  · exact ⟨tc.accounts, rfl⟩
  · exact ⟨_, rfl⟩

end TransactionContext

namespace ProgramRuntime

/-- A call on the invocation stack, with the state of the accounts' cells it finds. -/
inductive StackCall
  | push (cells : AccountCells) (next : InstructionContext)
  | pop (cells : AccountCells)
  | transfer (source destination amount : Nat)

def StackCall.run : StackCall → TransactionContextM Unit
  | .push cells next => InvokeContext.pushIn cells next
  | .pop cells => InvokeContext.popIn cells
  | .transfer source destination amount =>
      TransactionContext.transferLamports source destination amount

/-- The transaction after the calls, each from the state the last one left. -/
def runCalls (calls : List StackCall) (tc : TransactionContext) : TransactionContext :=
  runEach (calls.map StackCall.run) tc

end ProgramRuntime

/-! ### What a push and a pop decide -/

namespace TransactionContext

open Lib.Except

variable {tc tc' : TransactionContext} {cells : AccountCells} {next caller frame : InstructionContext}

theorem isEmpty_eq_false_of_getLast? {stack : List InstructionContext} (hTop : stack.getLast? = some frame) :
    stack.isEmpty = false := by
  cases stack with
  | nil => simp at hTop
  | cons _ _ => rfl

/-- With early verification, the caller's check passes only if the running frame's lamports are
those it was pushed with. -/
theorem checkCallerBalanced_ne_ok (hEarly : tc.isEarlyVerificationOfAccountModificationsEnabled = true)
    (hTop : tc.instructionStack.getLast? = some caller)
    (hChanged : tc.instructionAccountsLamportSumIn cells caller ≠ .ok caller.instructionAccountsLamportSum) :
    tc.checkCallerBalanced cells ≠ .ok () := by
  intro hOk
  simp only [checkCallerBalanced, isEmpty_eq_false_of_getLast? hTop, hEarly, Bool.not_false,
    Bool.and_self, if_true, bind_eq_ok, getCurrentInstructionContext_eq_ok, hTop,
    Option.some.injEq, failIf_eq_ok, not_not] at hOk
  obtain ⟨_, rfl, current, hCurrent, hSame⟩ := hOk
  exact hChanged (hSame ▸ hCurrent)

/-- Once the caller's lamports can be summed, a change is reported as `UnbalancedInstruction`. -/
theorem checkCallerBalanced_of_changed (hEarly : tc.isEarlyVerificationOfAccountModificationsEnabled = true)
    (hTop : tc.instructionStack.getLast? = some caller) {current : Nat}
    (hCurrent : tc.instructionAccountsLamportSumIn cells caller = .ok current)
    (hChanged : caller.instructionAccountsLamportSum ≠ current) :
    tc.checkCallerBalanced cells = .error .unbalancedInstruction := by
  simp only [checkCallerBalanced, isEmpty_eq_false_of_getLast? hTop, hEarly, Bool.not_false,
    Bool.and_self, if_true, getCurrentInstructionContext, hTop, okOr_some, bind_ok, hCurrent,
    failIf_of_cond _ hChanged]

/-- A push that returned passed every check and pushed the configured frame. -/
theorem pushIn_eq_ok {u : Unit} (h : (pushIn cells next).run tc = .ok u tc') :
    ∃ sum, tc.instructionAccountsLamportSumIn cells next = .ok sum ∧
      tc.checkCallerBalanced cells = .ok () ∧
      tc.instructionTraceLength < tc.instructionTraceCapacity ∧
      tc.getInstructionContextStackHeight < tc.instructionStackCapacity ∧
      tc' = tc.pushed (tc.pushedFrame next sum) := by
  rw [pushIn_run] at h
  rcases hSum : tc.instructionAccountsLamportSumIn cells next with e | sum
  · simp only [hSum] at h
    cases h
  rcases hCheck : tc.checkCallerBalanced cells with e | ⟨⟩
  · simp only [hSum, hCheck] at h
    cases h
  simp only [hSum, hCheck] at h
  by_cases hTrace : tc.instructionTraceCapacity ≤ tc.instructionTraceLength
  · simp only [hTrace, if_true, reduceCtorEq] at h
  by_cases hStack : tc.instructionStackCapacity ≤ tc.getInstructionContextStackHeight
  · simp only [hTrace, hStack, if_true, if_false, reduceCtorEq] at h
  simp only [hTrace, hStack, if_false, EStateM.Result.ok.injEq] at h
  exact ⟨sum, rfl, rfl, Nat.lt_of_not_le hTrace, Nat.lt_of_not_le hStack, h.2.symm⟩

/-- The account at an index can be read exactly when the index is in range. -/
theorem getAccountAtIndex_isOk {index : Nat} :
    (∃ account, tc.getAccountAtIndex index = .ok account) ↔ index < tc.accounts.length := by
  simp [getAccountAtIndex, okOr_eq_ok, List.getElem?_eq_some_iff]

/-- The check of `pop` finds the frame balanced exactly when its program accounts are there and
free, and its lamports sum to what it was pushed with. -/
theorem detectUnbalancedInstruction_eq_ok_false
    (hEarly : tc.isEarlyVerificationOfAccountModificationsEnabled = true)
    (hTop : tc.instructionStack.getLast? = some frame) :
    tc.detectUnbalancedInstruction cells = .ok false ↔
      (∀ index ∈ frame.programAccounts,
        index < tc.accounts.length ∧ (cells index).canBorrowMut = true) ∧
      tc.instructionAccountsLamportSumIn cells frame = .ok frame.instructionAccountsLamportSum := by
  simp only [detectUnbalancedInstruction, hEarly, if_true, getCurrentInstructionContext, hTop,
    okOr_some, bind_ok, bind_eq_ok, forM_eq_ok, failIf_eq_ok, pure_eq_ok, decide_eq_false_iff_not,
    not_not, Bool.not_eq_true', Bool.not_eq_false]
  constructor
  · rintro ⟨-, hAccounts, sum, hSum, hSame⟩
    refine ⟨fun index hIndex => ?_, hSame ▸ hSum⟩
    obtain ⟨account, hAccount, hFree⟩ := hAccounts index hIndex
    exact ⟨getAccountAtIndex_isOk.mp ⟨account, hAccount⟩, hFree⟩
  · rintro ⟨hAccounts, hSum⟩
    refine ⟨(), fun index hIndex => ?_, _, hSum, rfl⟩
    obtain ⟨hLt, hFree⟩ := hAccounts index hIndex
    obtain ⟨account, hAccount⟩ := getAccountAtIndex_isOk.mpr hLt
    exact ⟨account, hAccount, hFree⟩

/-- A pop on a stack with a frame removes that frame, whatever it returns. -/
theorem popIn_state (hTop : tc.instructionStack.getLast? = some frame) :
    state ((popIn cells).run tc) = tc.popped := by
  rw [popIn_run, if_neg (by simp [isEmpty_eq_false_of_getLast? hTop])]
  rcases tc.detectUnbalancedInstruction cells with e | detected
  · rfl
  · cases detected <;> rfl

/-- A pop returns `Ok` exactly when the frame's program accounts are there and free, and its
lamports sum to what it was pushed with. -/
theorem popIn_isOk_iff (hEarly : tc.isEarlyVerificationOfAccountModificationsEnabled = true)
    (hTop : tc.instructionStack.getLast? = some frame) :
    (∃ u tc', (popIn cells).run tc = .ok u tc') ↔
      (∀ index ∈ frame.programAccounts,
        index < tc.accounts.length ∧ (cells index).canBorrowMut = true) ∧
      tc.instructionAccountsLamportSumIn cells frame = .ok frame.instructionAccountsLamportSum := by
  rw [← detectUnbalancedInstruction_eq_ok_false hEarly hTop, popIn_run,
    if_neg (by simp [isEmpty_eq_false_of_getLast? hTop])]
  rcases tc.detectUnbalancedInstruction cells with e | detected
  · simp
  · cases detected <;> simp

end TransactionContext

namespace ProgramRuntime

open Lib.Except

variable {tc tc' : TransactionContext} {cells : AccountCells} {next caller frame : InstructionContext}

/-- An `InvokeContext::push` that returned knew the program, passed the reentrancy check, and
pushed. -/
theorem InvokeContext.pushIn_eq_ok {u : Unit} (h : (InvokeContext.pushIn cells next).run tc = .ok u tc') :
    ∃ programId, next.getLastProgramKey tc = .ok programId ∧
      checkReentrancy tc cells programId = .ok () ∧
      (TransactionContext.pushIn cells next).run tc = .ok u tc' := by
  rw [InvokeContext.pushIn_run] at h
  rcases hKey : next.getLastProgramKey tc with e | programId
  · simp only [hKey] at h
    cases h
  rcases hCheck : checkReentrancy tc cells programId with e | ⟨⟩
  · simp only [hKey, hCheck] at h
    cases h
  simp only [hKey, hCheck] at h
  exact ⟨programId, rfl, hCheck, h⟩

/-- The frame runs the program `programId`: its last program account has that key. -/
def RunsProgram (tc : TransactionContext) (frame : InstructionContext) (programId : Pubkey) : Prop :=
  ∃ programAccount, frame.tryBorrowLastProgramAccount tc = .ok programAccount ∧
    programAccount.getKey = programId

/-- No program account of a frame on the stack is borrowed. -/
def ProgramAccountsFree (tc : TransactionContext) (cells : AccountCells) : Prop :=
  ∀ frame ∈ tc.instructionStack, ∀ index ∈ frame.programAccounts, (cells index).canBorrowMut = true

/-- The account `try_borrow_last_program_account` borrows is a program account of the frame. -/
theorem mem_programAccounts_of_tryBorrowLastProgramAccount {programAccount : BorrowedAccount}
    (h : frame.tryBorrowLastProgramAccount tc = .ok programAccount) :
    programAccount.indexInTransaction ∈ frame.programAccounts := by
  simp only [InstructionContext.tryBorrowLastProgramAccount, InstructionContext.tryBorrowProgramAccount,
    InstructionContext.tryBorrowAccount, InstructionContext.getIndexOfProgramAccountInTransaction,
    bind_eq_ok, okOr_eq_ok, pure_eq_ok] at h
  obtain ⟨index, hIndex, _, -, rfl⟩ := h
  exact List.mem_of_getElem? hIndex

/-- Where the frame's program accounts are free, the closure of the reentrancy check asks
whether the frame runs the program. -/
theorem lastProgramIsIn_ok (hFree : ∀ index ∈ frame.programAccounts, (cells index).canBorrowMut = true)
    (programId : Pubkey) :
    lastProgramIsIn tc cells programId (.ok frame) = true ↔ RunsProgram tc frame programId := by
  simp only [lastProgramIsIn, bind_ok]
  rcases hBorrow : frame.tryBorrowLastProgramAccount tc with e | programAccount
  · simp [RunsProgram, hBorrow]
  · simp [RunsProgram, hBorrow, hFree _ (mem_programAccounts_of_tryBorrowLastProgramAccount hBorrow)]

/-- A push succeeds only for a program that no frame of the stack runs, or that the top frame
runs, where the stack's program accounts are free. -/
theorem InvokeContext.pushIn_not_reentrant (hFree : ProgramAccountsFree tc cells) {u : Unit}
    (h : (InvokeContext.pushIn cells next).run tc = .ok u tc') :
    ∃ programId, next.getLastProgramKey tc = .ok programId ∧
      ((∀ frame ∈ tc.instructionStack, ¬RunsProgram tc frame programId) ∨
        ∃ top, tc.instructionStack.getLast? = some top ∧ RunsProgram tc top programId) := by
  obtain ⟨programId, hKey, hCheck, -⟩ := InvokeContext.pushIn_eq_ok h
  refine ⟨programId, hKey, ?_⟩
  by_cases hEmpty : tc.getInstructionContextStackHeight = 0
  · -- an empty stack runs nothing
    left
    intro frame hFrame
    simp only [TransactionContext.getInstructionContextStackHeight, List.length_eq_zero_iff] at hEmpty
    simp [hEmpty] at hFrame
  · rw [checkReentrancy, if_pos hEmpty, failIf_eq_ok] at hCheck
    by_cases hContains : ((List.range tc.getInstructionContextStackHeight).any fun level =>
        lastProgramIsIn tc cells programId (tc.getInstructionContextAtNestingLevel level)) = true
    · -- the program is on the stack: the top frame runs it
      right
      have hLast : lastProgramIsIn tc cells programId tc.getCurrentInstructionContext = true := by
        simpa [hContains] using hCheck
      rcases hTop : tc.instructionStack.getLast? with _ | top
      · simp [lastProgramIsIn, TransactionContext.getCurrentInstructionContext, hTop] at hLast
      · refine ⟨top, rfl, (lastProgramIsIn_ok (hFree top (List.mem_of_getLast? hTop)) programId).mp ?_⟩
        simpa [TransactionContext.getCurrentInstructionContext, hTop] using hLast
    · -- no level runs it
      left
      intro frame hFrame hRuns
      obtain ⟨level, hLevel, hAt⟩ := List.getElem_of_mem hFrame
      apply hContains
      refine List.any_eq_true.mpr ⟨level, List.mem_range.mpr hLevel, ?_⟩
      simp only [TransactionContext.getInstructionContextAtNestingLevel, List.getElem?_eq_getElem hLevel,
        hAt, okOr_some]
      exact (lastProgramIsIn_ok (hFree frame hFrame) programId).mpr hRuns

end ProgramRuntime

/-! ### The frames over a run -/

namespace ProgramRuntime

open TransactionContext

variable {tc : TransactionContext}

/-- What one call may do to the stack: keep it, pop its top frame, or push a frame; the rent,
and with it early verification, stays. -/
def StackStep (tc tc' : TransactionContext) : Prop :=
  tc'.rent = tc.rent ∧
    (tc'.instructionStack = tc.instructionStack ∨
      tc'.instructionStack = tc.instructionStack.dropLast ∨
      ∃ frame, tc'.instructionStack = tc.instructionStack ++ [frame])

theorem StackStep.of_pushIn (cells : AccountCells) (next : InstructionContext) :
    StackStep tc (state ((TransactionContext.pushIn cells next).run tc)) := by
  rcases pushIn_state cells next with hSame | ⟨-, hTaken⟩ | ⟨-, -, sum, -, hPushed⟩
  · rw [hSame]
    exact ⟨rfl, .inl rfl⟩
  · rw [hTaken]
    exact ⟨rfl, .inl rfl⟩
  · rw [hPushed]
    exact ⟨rfl, .inr (.inr ⟨_, rfl⟩)⟩

/-- Step lemma: every call is a `StackStep`, whatever it returns. -/
theorem StackCall.stackStep (call : StackCall) (tc : TransactionContext) :
    StackStep tc (state (call.run.run tc)) := by
  cases call with
  | push cells next =>
      rcases InvokeContext.pushIn_state cells next tc with hSame | hPushed
      · rw [StackCall.run, hSame]
        exact ⟨rfl, .inl rfl⟩
      · rw [StackCall.run, hPushed]
        exact StackStep.of_pushIn cells next
  | pop cells =>
      simp only [StackCall.run, InvokeContext.popIn, popIn_run]
      split_ifs
      · exact ⟨rfl, .inl rfl⟩
      · rcases tc.detectUnbalancedInstruction cells with e | detected
        · exact ⟨rfl, .inr (.inl rfl)⟩
        · cases detected <;> exact ⟨rfl, .inr (.inl rfl)⟩
  | transfer source destination amount =>
      obtain ⟨accounts, hState⟩ := transferLamports_state source destination amount tc
      simp only [StackCall.run, hState]
      exact ⟨rfl, .inl rfl⟩

/-- Every call keeps the stack and the trace within their capacities. -/
theorem StackCall.withinCapacity (call : StackCall) (h : tc.WithinCapacity) :
    (state (call.run.run tc)).WithinCapacity := by
  cases call with
  | push cells next =>
      rcases InvokeContext.pushIn_state cells next tc with hSame | hPushed
      · rw [StackCall.run, hSame]
        exact h
      · rw [StackCall.run, hPushed]
        exact h.pushIn cells next
  | pop cells => exact h.popIn cells
  | transfer source destination amount =>
      obtain ⟨accounts, hState⟩ := transferLamports_state source destination amount tc
      rw [StackCall.run, hState]
      exact h

/-- Run lemma: the stack and the trace stay within their capacities over every run. -/
theorem withinCapacity_runCalls (h : tc.WithinCapacity) (calls : List StackCall) :
    (runCalls calls tc).WithinCapacity :=
  runEach_invariant (by
    intro x hx tc' hWithin
    obtain ⟨call, -, rfl⟩ := List.mem_map.mp hx
    exact call.withinCapacity hWithin) h

/-- The least height of the stack along the run of `calls`. -/
def lowestHeight : List StackCall → TransactionContext → Nat
  | [], tc => tc.instructionStack.length
  | call :: calls, tc =>
      min tc.instructionStack.length (lowestHeight calls (state (call.run.run tc)))

theorem lowestHeight_le (calls : List StackCall) (tc : TransactionContext) :
    lowestHeight calls tc ≤ tc.instructionStack.length := by
  cases calls with
  | nil => exact le_rfl
  | cons call calls => exact min_le_left _ _

/-- A step keeps the frames below both heights. -/
theorem StackStep.take_eq {tc' : TransactionContext} (h : StackStep tc tc') {m : Nat}
    (hm : m ≤ tc.instructionStack.length) (hm' : m ≤ tc'.instructionStack.length) :
    tc'.instructionStack.take m = tc.instructionStack.take m := by
  obtain ⟨-, hSame | hPop | ⟨frame, hPush⟩⟩ := h
  · rw [hSame]
  · rw [hPop, List.dropLast_eq_take, List.take_take, min_eq_left]
    rw [hPop, List.length_dropLast] at hm'
    exact hm'
  · rw [hPush, List.take_append_of_le_length hm]

/-- Run lemma: the frames below the lowest height a run reaches are never touched. -/
theorem runCalls_take_lowestHeight (calls : List StackCall) (tc : TransactionContext) :
    (runCalls calls tc).instructionStack.take (lowestHeight calls tc) =
      tc.instructionStack.take (lowestHeight calls tc) := by
  induction calls generalizing tc with
  | nil => rfl
  | cons call calls ih =>
      -- the run goes on from the state the first call left
      set next := state (call.run.run tc)
      have hRest : runCalls (call :: calls) tc = runCalls calls next := rfl
      have hLow : lowestHeight (call :: calls) tc =
          min tc.instructionStack.length (lowestHeight calls next) := rfl
      have hNext : lowestHeight calls next ≤ next.instructionStack.length :=
        lowestHeight_le calls next
      rw [hRest, hLow]
      calc (runCalls calls next).instructionStack.take
              (min tc.instructionStack.length (lowestHeight calls next))
          = ((runCalls calls next).instructionStack.take (lowestHeight calls next)).take
              (min tc.instructionStack.length (lowestHeight calls next)) := by
            rw [List.take_take, min_eq_left (min_le_right _ _)]
        _ = (next.instructionStack.take (lowestHeight calls next)).take
              (min tc.instructionStack.length (lowestHeight calls next)) := by rw [ih next]
        _ = next.instructionStack.take
              (min tc.instructionStack.length (lowestHeight calls next)) := by
            rw [List.take_take, min_eq_left (min_le_right _ _)]
        _ = tc.instructionStack.take (min tc.instructionStack.length (lowestHeight calls next)) :=
            (call.stackStep tc).take_eq (min_le_left _ _) ((min_le_right _ _).trans hNext)

/-- A frame that a push put on the stack stays there, with the lamport sum its accounts had at
the push, for as long as the run stays above it. -/
theorem pushedFrame_kept {cells : AccountCells} {next : InstructionContext} {u : Unit}
    {pushedTc : TransactionContext}
    (hPush : (InvokeContext.pushIn cells next).run tc = .ok u pushedTc) (calls : List StackCall)
    (hAbove : tc.instructionStack.length < lowestHeight calls pushedTc) :
    ∃ sum, tc.instructionAccountsLamportSumIn cells next = .ok sum ∧
      (runCalls calls pushedTc).instructionStack[tc.instructionStack.length]? =
        some (tc.pushedFrame next sum) := by
  obtain ⟨programId, -, -, hPushIn⟩ := InvokeContext.pushIn_eq_ok hPush
  obtain ⟨sum, hSum, -, -, -, rfl⟩ := TransactionContext.pushIn_eq_ok hPushIn
  refine ⟨sum, hSum, ?_⟩
  have hKept := runCalls_take_lowestHeight calls (tc.pushed (tc.pushedFrame next sum))
  have hAt : ((tc.pushed (tc.pushedFrame next sum)).instructionStack.take
      (lowestHeight calls (tc.pushed (tc.pushedFrame next sum))))[tc.instructionStack.length]? =
        some (tc.pushedFrame next sum) := by
    rw [List.getElem?_take_of_lt hAbove]
    simp [pushed]
  rw [← hKept, List.getElem?_take_of_lt hAbove] at hAt
  exact hAt

end ProgramRuntime

/-! ### The invocation stack over every run -/

namespace ProgramRuntime

open TransactionContext

variable {tc : TransactionContext}

/-- Run lemma: no call changes the rent, so early verification stays as it started. -/
theorem runCalls_rent (calls : List StackCall) (tc : TransactionContext) :
    (runCalls calls tc).rent = tc.rent := by
  have hStep : ∀ x ∈ calls.map StackCall.run, ∀ tc' : TransactionContext, tc'.rent = tc.rent →
      (state (x.run tc')).rent = tc.rent := by
    intro x hx tc' hRent
    obtain ⟨call, -, rfl⟩ := List.mem_map.mp hx
    exact (call.stackStep tc').1.trans hRent
  exact @runEach_invariant _ _ _ (fun tc' : TransactionContext => tc'.rent = tc.rent) _ hStep _ rfl

/-- What the stack guarantees at a state `tc` under early verification: it is within its
capacities; a push returns only with room in the trace and the stack, and only for a program no
frame runs or the top frame runs, where the stack's program accounts are free; a push from a
frame whose lamports are not those it was pushed with fails, with `UnbalancedInstruction` once
the earlier checks pass and the lamports can be summed; a pop removes the top frame and returns
`Ok` exactly when its program accounts are there and free and its lamports balance; and a frame
a push put on the stack keeps the lamport sum it was pushed with while the run stays above
it. -/
structure StackGuarantees (tc : TransactionContext) : Prop where
  withinCapacity : tc.WithinCapacity
  push_room : ∀ (cells : AccountCells) (next : InstructionContext) (u : Unit)
    (tc' : TransactionContext), (InvokeContext.pushIn cells next).run tc = .ok u tc' →
      tc.instructionTraceLength < tc.instructionTraceCapacity ∧
        tc.instructionStack.length < tc.instructionStackCapacity
  push_not_reentrant : ∀ (cells : AccountCells) (next : InstructionContext) (u : Unit)
    (tc' : TransactionContext), ProgramAccountsFree tc cells →
      (InvokeContext.pushIn cells next).run tc = .ok u tc' →
      ∃ programId, next.getLastProgramKey tc = .ok programId ∧
        ((∀ frame ∈ tc.instructionStack, ¬RunsProgram tc frame programId) ∨
          ∃ top, tc.instructionStack.getLast? = some top ∧ RunsProgram tc top programId)
  push_unbalanced : ∀ (cells : AccountCells) (caller : InstructionContext),
    tc.instructionStack.getLast? = some caller →
    tc.instructionAccountsLamportSumIn cells caller ≠ .ok caller.instructionAccountsLamportSum →
    ∀ next : InstructionContext,
      (∀ (u : Unit) (tc' : TransactionContext), (InvokeContext.pushIn cells next).run tc ≠ .ok u tc') ∧
      ∀ (programId : Pubkey) (sum current : Nat), next.getLastProgramKey tc = .ok programId →
        checkReentrancy tc cells programId = .ok () →
        tc.instructionAccountsLamportSumIn cells next = .ok sum →
        tc.instructionAccountsLamportSumIn cells caller = .ok current →
        (InvokeContext.pushIn cells next).run tc = .error .unbalancedInstruction tc
  pop : ∀ (cells : AccountCells) (frame : InstructionContext),
    tc.instructionStack.getLast? = some frame →
      state ((InvokeContext.popIn cells).run tc) = tc.popped ∧
      ((∃ (u : Unit) (tc' : TransactionContext), (InvokeContext.popIn cells).run tc = .ok u tc') ↔
        (∀ index ∈ frame.programAccounts,
          index < tc.accounts.length ∧ (cells index).canBorrowMut = true) ∧
        tc.instructionAccountsLamportSumIn cells frame = .ok frame.instructionAccountsLamportSum)
  pushed_kept : ∀ (cells : AccountCells) (next : InstructionContext) (u : Unit)
    (tc' : TransactionContext), (InvokeContext.pushIn cells next).run tc = .ok u tc' →
      ∀ calls : List StackCall, tc.instructionStack.length < lowestHeight calls tc' →
        ∃ sum, tc.instructionAccountsLamportSumIn cells next = .ok sum ∧
          (runCalls calls tc').instructionStack[tc.instructionStack.length]? =
            some (tc.pushedFrame next sum)

/-- A push from a frame whose lamports changed fails. -/
theorem InvokeContext.pushIn_unbalanced
    (hEarly : tc.isEarlyVerificationOfAccountModificationsEnabled = true) {cells : AccountCells}
    {caller : InstructionContext} (hTop : tc.instructionStack.getLast? = some caller)
    (hChanged : tc.instructionAccountsLamportSumIn cells caller ≠ .ok caller.instructionAccountsLamportSum)
    (next : InstructionContext) (u : Unit) (tc' : TransactionContext) :
    (InvokeContext.pushIn cells next).run tc ≠ .ok u tc' := by
  intro h
  obtain ⟨programId, -, -, hPushIn⟩ := InvokeContext.pushIn_eq_ok h
  obtain ⟨sum, -, hCheck, -⟩ := TransactionContext.pushIn_eq_ok hPushIn
  exact checkCallerBalanced_ne_ok hEarly hTop hChanged hCheck

/-- Once the earlier checks pass and the caller's lamports can be summed, the failure is
`UnbalancedInstruction`, with the transaction as it was. -/
theorem InvokeContext.pushIn_eq_unbalanced
    (hEarly : tc.isEarlyVerificationOfAccountModificationsEnabled = true) {cells : AccountCells}
    {caller next : InstructionContext} (hTop : tc.instructionStack.getLast? = some caller)
    {programId : Pubkey} {sum current : Nat} (hChanged : caller.instructionAccountsLamportSum ≠ current)
    (hKey : next.getLastProgramKey tc = .ok programId)
    (hReentrancy : checkReentrancy tc cells programId = .ok ())
    (hSum : tc.instructionAccountsLamportSumIn cells next = .ok sum)
    (hCurrent : tc.instructionAccountsLamportSumIn cells caller = .ok current) :
    (InvokeContext.pushIn cells next).run tc = .error .unbalancedInstruction tc := by
  rw [InvokeContext.pushIn_run, hKey]
  dsimp only
  rw [hReentrancy]
  dsimp only
  rw [TransactionContext.pushIn_run, hSum, checkCallerBalanced_of_changed hEarly hTop hCurrent hChanged]

/-- The guarantees hold at a state under early verification. -/
theorem stackGuarantees (hEarly : tc.isEarlyVerificationOfAccountModificationsEnabled = true)
    (hWithin : tc.WithinCapacity) : StackGuarantees tc where
  withinCapacity := hWithin
  push_room := by
    intro cells next u tc' h
    obtain ⟨programId, -, -, hPushIn⟩ := InvokeContext.pushIn_eq_ok h
    obtain ⟨sum, -, -, hTrace, hStack, -⟩ := TransactionContext.pushIn_eq_ok hPushIn
    exact ⟨hTrace, hStack⟩
  push_not_reentrant := fun _ _ _ _ hFree h => InvokeContext.pushIn_not_reentrant hFree h
  push_unbalanced := by
    intro cells caller hTop hChanged next
    refine ⟨InvokeContext.pushIn_unbalanced hEarly hTop hChanged next, ?_⟩
    intro programId sum current hKey hReentrancy hSum hCurrent
    have hNe : caller.instructionAccountsLamportSum ≠ current := by
      rintro rfl
      exact hChanged hCurrent
    exact InvokeContext.pushIn_eq_unbalanced hEarly hTop hNe hKey hReentrancy hSum hCurrent
  pop := fun cells _ hTop => ⟨popIn_state hTop, popIn_isOk_iff hEarly hTop⟩
  pushed_kept := fun _ _ _ _ hPush calls hAbove => pushedFrame_kept hPush calls hAbove

end ProgramRuntime

/-! ### A program entered again past a borrowed frame -/

namespace ProgramRuntime

/-- Two programs, each running one frame of the stack, the first under the second, with early
verification. -/
def reentryContext : TransactionContext :=
  ⟨[⟨Vector.replicate 32 1⟩, ⟨Vector.replicate 32 2⟩],
    [⟨1, [], bpfLoaderId, true, 0⟩, ⟨1, [], bpfLoaderId, true, 0⟩], 64, 64,
    [⟨0, 0, [0], [], []⟩, ⟨1, 0, [1], [], []⟩], 2, 0, some ⟨3480, .finite 2 0, 50⟩, false⟩

/-- The account of the first program is still borrowed by a reader. -/
def reentryCells : AccountCells := fun index => if index = 0 then .shared else .unused

end ProgramRuntime

end PutValidator
