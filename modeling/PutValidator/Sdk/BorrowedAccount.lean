import PutValidator.Sdk.AccountRules
import PutValidator.Lib.EState
import PutValidator.Lib.Codec

/-! The methods through which a program changes an account it borrowed (`BorrowedAccount` of
`sdk/src/transaction_context.rs`). A method that takes `&mut self` and returns a `Result` is a
computation in `EStateM` over the borrowed account, whose transaction part carries the
transaction's resize delta; the checks that take `&self` are functions of the borrowed account.
With early verification (the transaction has a rent) every method checks the account rules
before it writes. Each call makes at most one `Change` and a failed call writes nothing, so a
sequence of calls makes a chain of changes, and what `AccountRules` derives of such chains holds
of every sequence of calls. -/
namespace PutValidator

open Lib.Word Relation

/-- A method of `BorrowedAccount` that takes `&mut self`. -/
abbrev BorrowedAccountM := EStateM InstructionError BorrowedAccount

namespace BorrowedAccount

section Checks

open Lib.Except

variable (b : BorrowedAccount)

/-- The borrowed account with `account` in place and the transaction's resize delta set to
`accountsResizeDelta`. -/
def update (account : AccountSharedData) (accountsResizeDelta : Int) : BorrowedAccount :=
  { b with account, transactionContext := { b.transactionContext with accountsResizeDelta } }

/-- `touch`. The touched flags are not modelled, only the failure for an index that has none. -/
def touch : Except InstructionError Unit :=
  failIf (b.transactionContext.isEarlyVerificationOfAccountModificationsEnabled = true ∧
    b.transactionContext.accounts.length ≤ b.indexInTransaction) .notEnoughAccountKeys

/-- `get_state`: the state bincode reads from the front of the data. -/
def getState {α : Type} (c : Lib.Codec.Codec α) : Except InstructionError α :=
  okOr ((c.decode b.getData).map (·.1)) .invalidAccountData

/-- `can_data_be_changed`. -/
def canDataBeChanged : Except InstructionError Unit := do
  if !b.transactionContext.isEarlyVerificationOfAccountModificationsEnabled then return
  failIf (b.isExecutable = true) .executableDataModified
  failIf (b.isWritable = false) .readonlyDataModified
  failIf (b.isOwnedByCurrentProgram = false) .externalAccountDataModified

/-- `can_data_be_resized`. -/
def canDataBeResized (newLength : Nat) : Except InstructionError Unit := do
  if !b.transactionContext.isEarlyVerificationOfAccountModificationsEnabled then return
  let oldLength := b.getData.length
  failIf (newLength ≠ oldLength ∧ b.isOwnedByCurrentProgram = false) .accountDataSizeChanged
  failIf (maxPermittedDataLength < newLength) .invalidRealloc
  if b.transactionContext.isCapAccountsDataAllocationsPerTransactionEnabled then
    let lengthDelta := saturatingSubSigned 64 (asSigned 64 newLength) (asSigned 64 oldLength)
    failIf (maxPermittedAccountsDataAllocationsPerTransaction <
        saturatingAddSigned 64 b.transactionContext.accountsResizeDelta lengthDelta)
      .maxAccountsDataAllocationsExceeded

end Checks

section Methods

open Lib.EState

/-- `update_accounts_resize_delta`. -/
def updateAccountsResizeDelta (newLen : Nat) : BorrowedAccountM Unit :=
  modify fun b => { b with
    transactionContext := { b.transactionContext with
      accountsResizeDelta := saturatingAddSigned 64 b.transactionContext.accountsResizeDelta
        (saturatingSubSigned 64 (asSigned 64 newLen) (asSigned 64 b.getData.length)) } }

/-- `set_owner`. -/
def setOwner (pubkey : Pubkey) : BorrowedAccountM Unit := do
  let b ← get
  if b.transactionContext.isEarlyVerificationOfAccountModificationsEnabled then
    failIf (b.isOwnedByCurrentProgram = false) .modifiedProgramId
    failIf (b.isWritable = false) .modifiedProgramId
    failIf (b.isExecutable = true) .modifiedProgramId
    failIf (isZeroed b.getData = false) .modifiedProgramId
    if b.getOwner = pubkey then return
    liftExcept b.touch
  modify fun b => { b with account := { b.account with owner := pubkey } }

/-- `set_lamports`. -/
def setLamports (lamports : Nat) : BorrowedAccountM Unit := do
  let b ← get
  if b.transactionContext.isEarlyVerificationOfAccountModificationsEnabled then
    failIf (b.isOwnedByCurrentProgram = false ∧ lamports < b.getLamports)
      .externalAccountLamportSpend
    failIf (b.isWritable = false) .readonlyLamportChange
    failIf (b.isExecutable = true) .executableLamportChange
    if b.getLamports = lamports then return
    liftExcept b.touch
  modify fun b => { b with account := { b.account with lamports } }

/-- `set_lamports` of `op (get_lamports(), lamports)`, with `ArithmeticOverflow` when `op` has no
result. -/
def setLamportsChecked (op : Nat → Nat → Option Nat) (lamports : Nat) :
    BorrowedAccountM Unit := do
  let some result := op (← get).getLamports lamports | throw .arithmeticOverflow
  setLamports result

/-- `checked_add_lamports`. -/
def checkedAddLamports (lamports : Nat) : BorrowedAccountM Unit :=
  setLamportsChecked (checkedAdd 128) lamports

/-- `checked_sub_lamports`. -/
def checkedSubLamports (lamports : Nat) : BorrowedAccountM Unit :=
  setLamportsChecked checkedSub lamports

/-- `get_data_mut`: the slice it returns is the whole data; `make_data_mut` only reserves
capacity. -/
def getDataMut : BorrowedAccountM (List UInt8) := do
  liftExcept (← get).canDataBeChanged
  liftExcept (← get).touch
  return (← get).getData

/-- `set_data`. -/
def setData (data : List UInt8) : BorrowedAccountM Unit := do
  liftExcept ((← get).canDataBeResized data.length)
  liftExcept (← get).canDataBeChanged
  liftExcept (← get).touch
  updateAccountsResizeDelta data.length
  modify fun b => { b with account := { b.account with data } }

/-- `set_data_from_slice`: the change of `set_data`, as `make_data_mut` only reserves
capacity. -/
def setDataFromSlice (data : List UInt8) : BorrowedAccountM Unit :=
  setData data

/-- `set_data_length`: `Vec::resize` with zeros. -/
def setDataLength (newLength : Nat) : BorrowedAccountM Unit := do
  liftExcept ((← get).canDataBeResized newLength)
  liftExcept (← get).canDataBeChanged
  if (← get).getData.length = newLength then return
  liftExcept (← get).touch
  updateAccountsResizeDelta newLength
  modify fun b => { b with
    account := { b.account with
      data := b.account.data.take newLength ++
        List.replicate (newLength - b.account.data.length) 0 } }

/-- `extend_from_slice`. -/
def extendFromSlice (data : List UInt8) : BorrowedAccountM Unit := do
  let newLen := saturatingAdd 64 (← get).getData.length data.length
  liftExcept ((← get).canDataBeResized newLen)
  liftExcept (← get).canDataBeChanged
  if data.isEmpty then return
  liftExcept (← get).touch
  updateAccountsResizeDelta newLen
  modify fun b => { b with account := { b.account with data := b.account.data ++ data } }

/-- `set_state`, for a state whose bincode serialization is `serialized` (`none` when bincode
fails): `serialize_into` overwrites the front of the data. -/
def setState (serialized : Option (List UInt8)) : BorrowedAccountM Unit := do
  let data ← getDataMut
  let some bytes := serialized | throw .genericError
  failIf (data.length < bytes.length) .accountDataTooSmall
  modify fun b => { b with account := { b.account with data := bytes ++ data.drop bytes.length } }

/-- `set_executable`. -/
def setExecutable (isExecutable : Bool) : BorrowedAccountM Unit := do
  let b ← get
  if let some rent := b.transactionContext.rent then
    failIf (rent.isExempt b.getLamports b.getData.length = false)
      .executableAccountNotRentExempt
    failIf (b.isOwnedByCurrentProgram = false) .executableModified
    failIf (b.isWritable = false) .executableModified
    failIf (b.isExecutable = true ∧ isExecutable = false) .executableModified
    if b.isExecutable = isExecutable then return
    liftExcept b.touch
  modify fun b => { b with account := { b.account with executable := isExecutable } }

end Methods

end BorrowedAccount

/-- The writes a program makes through the slice `get_data_mut` returned, each a byte at an
offset. -/
def writeData (writes : List (Nat × UInt8)) (data : List UInt8) : List UInt8 :=
  writes.foldl (fun data write => data.set write.1 write.2) data

theorem length_writeData (writes : List (Nat × UInt8)) (data : List UInt8) :
    (writeData writes data).length = data.length := by
  induction writes generalizing data with
  | nil => rfl
  | cons write writes ih =>
      show (writeData writes (data.set write.1 write.2)).length = data.length
      rw [ih, List.length_set]

/-- A call a program makes on an account it borrowed. `getDataMut` is `get_data_mut` followed by
the writes through the slice it returns. -/
inductive AccountCall
  | setOwner (pubkey : Pubkey)
  | setLamports (lamports : Nat)
  | checkedAddLamports (lamports : Nat)
  | checkedSubLamports (lamports : Nat)
  | getDataMut (writes : List (Nat × UInt8))
  | setData (data : List UInt8)
  | setDataFromSlice (data : List UInt8)
  | setDataLength (newLength : Nat)
  | extendFromSlice (data : List UInt8)
  | setState (serialized : Option (List UInt8))
  | setExecutable (isExecutable : Bool)
deriving DecidableEq, Repr

def AccountCall.run : AccountCall → BorrowedAccountM Unit
  | .setOwner pubkey => BorrowedAccount.setOwner pubkey
  | .setLamports lamports => BorrowedAccount.setLamports lamports
  | .checkedAddLamports lamports => BorrowedAccount.checkedAddLamports lamports
  | .checkedSubLamports lamports => BorrowedAccount.checkedSubLamports lamports
  | .getDataMut writes => do
      let _ ← BorrowedAccount.getDataMut
      modify fun b => { b with account := { b.account with data := writeData writes b.account.data } }
  | .setData data => BorrowedAccount.setData data
  | .setDataFromSlice data => BorrowedAccount.setDataFromSlice data
  | .setDataLength newLength => BorrowedAccount.setDataLength newLength
  | .extendFromSlice data => BorrowedAccount.extendFromSlice data
  | .setState serialized => BorrowedAccount.setState serialized
  | .setExecutable isExecutable => BorrowedAccount.setExecutable isExecutable

/-- An instruction account borrowed for the length of `f`: what `f` leaves of the account and
of the transaction's resize delta is the transaction's when the borrow ends, as the source's
`RefMut` writes through. -/
def InstructionContext.withBorrowedInstructionAccount {α : Type} (ic : InstructionContext)
    (tc : TransactionContext) (instructionAccountIndex : Nat) (f : BorrowedAccountM α) :
    Except InstructionError (α × TransactionContext) := do
  let b ← ic.tryBorrowInstructionAccount tc instructionAccountIndex
  match f.run b with
  | .ok a b' => pure (a, { tc with
      accounts := tc.accounts.set b.indexInTransaction b'.account
      accountsResizeDelta := b'.transactionContext.accountsResizeDelta })
  | .error e _ => throw e

/-- The borrowed account after `calls`, made one after the other whatever each returned. -/
def runCalls (calls : List AccountCall) (s : BorrowedAccount) : BorrowedAccount :=
  Lib.EState.runEach (calls.map AccountCall.run) s

/-! ### One call -/

namespace BorrowedAccount

variable {b s : BorrowedAccount} {program : Pubkey} {rent : Rent}

@[simp] theorem getLamports_eq : b.getLamports = b.account.lamports := rfl

@[simp] theorem getData_eq : b.getData = b.account.data := rfl

@[simp] theorem getOwner_eq : b.getOwner = b.account.owner := rfl

@[simp] theorem isExecutable_eq : b.isExecutable = b.account.executable := rfl

@[simp] theorem update_account (a : AccountSharedData) (d : Int) : (b.update a d).account = a :=
  rfl

@[simp] theorem update_isWritable (a : AccountSharedData) (d : Int) :
    (b.update a d).isWritable = b.isWritable :=
  rfl

@[simp] theorem update_rent (a : AccountSharedData) (d : Int) :
    (b.update a d).transactionContext.rent = b.transactionContext.rent :=
  rfl

@[simp] theorem update_getLastProgramKey (a : AccountSharedData) (d : Int) :
    (b.update a d).instructionContext.getLastProgramKey (b.update a d).transactionContext =
      b.instructionContext.getLastProgramKey b.transactionContext :=
  rfl

theorem update_self : b.update b.account b.transactionContext.accountsResizeDelta = b :=
  rfl

theorem isEarly_of_rent (hRent : b.transactionContext.rent = some rent) :
    b.transactionContext.isEarlyVerificationOfAccountModificationsEnabled = true := by
  simp [TransactionContext.isEarlyVerificationOfAccountModificationsEnabled, hRent]

theorem isOwnedByCurrentProgram_iff
    (hProgram : b.instructionContext.getLastProgramKey b.transactionContext = .ok program) :
    b.isOwnedByCurrentProgram = true ↔ b.account.owner = program := by
  rw [isOwnedByCurrentProgram, hProgram]
  simp only [beq_iff_eq, getOwner_eq]
  exact eq_comm

/-- What one call may do to a borrowed account of a frame whose last program is `program`, in a
transaction with rent `rent`: one change of the account rules, or none, and a new resize delta;
nothing else moves. -/
def Step (program : Pubkey) (rent : Rent) (s s' : BorrowedAccount) : Prop :=
  ∃ account accountsResizeDelta, s' = s.update account accountsResizeDelta ∧
    ReflGen (Change program s.isWritable rent) s.account account

/-- A call that changes nothing. -/
theorem Step.stay : Step program rent s s :=
  ⟨s.account, _, update_self.symm, .refl⟩

theorem Step.of_change {a : AccountSharedData} (h : Change program s.isWritable rent s.account a)
    (d : Int) : Step program rent s (s.update a d) :=
  ⟨a, d, Eq.refl _, .single h⟩

/-- The frame a call runs in: early verification with rent `rent`, in a frame whose last
program is `program`. -/
def InFrame (program : Pubkey) (rent : Rent) (s : BorrowedAccount) : Prop :=
  s.transactionContext.rent = some rent ∧
    s.instructionContext.getLastProgramKey s.transactionContext = .ok program

theorem Step.inFrame {s' : BorrowedAccount} (h : Step program rent s s')
    (hs : InFrame program rent s) : InFrame program rent s' := by
  obtain ⟨a, d, rfl, -⟩ := h
  exact ⟨(update_rent a d).trans hs.1, (update_getLastProgramKey a d).trans hs.2⟩

section Spec

open Lib.EState

variable (hRent : s.transactionContext.rent = some rent)
  (hProgram : s.instructionContext.getLastProgramKey s.transactionContext = .ok program)
include hRent hProgram

theorem canDataBeChanged_eq_ok {u : Unit} (h : s.canDataBeChanged = .ok u) :
    s.account.executable = false ∧ s.isWritable = true ∧ s.account.owner = program := by
  simp only [canDataBeChanged, isEarly_of_rent hRent, Bool.not_true, Bool.false_eq_true, if_false,
    Lib.Except.bind_eq_ok, Lib.Except.failIf_eq_ok, Bool.not_eq_false, Bool.not_eq_true] at h
  obtain ⟨_, hExecutable, _, hWritable, hOwned⟩ := h
  exact ⟨hExecutable, hWritable, (isOwnedByCurrentProgram_iff hProgram).mp hOwned⟩

theorem canDataBeResized_eq_ok {n : Nat} {u : Unit} (h : s.canDataBeResized n = .ok u) :
    (n ≠ s.account.data.length → s.account.owner = program) ∧ n ≤ maxPermittedDataLength := by
  simp only [canDataBeResized, isEarly_of_rent hRent, Bool.not_true, Bool.false_eq_true, if_false,
    Lib.Except.bind_eq_ok, Lib.Except.failIf_eq_ok] at h
  obtain ⟨_, hOwned, _, hLength, -⟩ := h
  refine ⟨fun hChanged => (isOwnedByCurrentProgram_iff hProgram).mp ?_, Nat.le_of_not_lt hLength⟩
  by_contra hNot
  exact hOwned ⟨hChanged, Bool.eq_false_iff.mpr hNot⟩

theorem setOwner_allOrNothing (pubkey : Pubkey) :
    AllOrNothing (Step program rent) s ((setOwner pubkey).run s) := by
  refine allOrNothing_get_bind ?_
  dsimp only
  rw [if_pos (isEarly_of_rent hRent)]
  refine allOrNothing_failIf_bind fun hOwned => ?_
  refine allOrNothing_failIf_bind fun hWritable => ?_
  refine allOrNothing_failIf_bind fun hExecutable => ?_
  refine allOrNothing_failIf_bind fun hZeroed => ?_
  split
  · exact allOrNothing_pure _ Step.stay
  · refine allOrNothing_liftExcept_bind fun _ _ => allOrNothing_modify ?_
    exact Step.of_change (.owner ((isOwnedByCurrentProgram_iff hProgram).mp (by simpa using hOwned))
      (by simpa using hWritable) (by simpa using hExecutable) (by simpa using hZeroed)) _

theorem setLamports_allOrNothing (lamports : Nat) :
    AllOrNothing (Step program rent) s ((setLamports lamports).run s) := by
  refine allOrNothing_get_bind ?_
  dsimp only
  rw [if_pos (isEarly_of_rent hRent)]
  refine allOrNothing_failIf_bind fun hSpend => ?_
  refine allOrNothing_failIf_bind fun hWritable => ?_
  refine allOrNothing_failIf_bind fun hExecutable => ?_
  split
  · exact allOrNothing_pure _ Step.stay
  · refine allOrNothing_liftExcept_bind fun _ _ => allOrNothing_modify ?_
    refine Step.of_change (.lamports (by simpa using hWritable) (by simpa using hExecutable)
      fun hNotOwned => ?_) _
    -- the spend check refuses a lower balance on an account the program does not own
    have hNotOwned' : s.isOwnedByCurrentProgram = false :=
      Bool.eq_false_iff.mpr fun hOwned => hNotOwned ((isOwnedByCurrentProgram_iff hProgram).mp hOwned)
    simpa [hNotOwned'] using hSpend

theorem setLamportsChecked_allOrNothing (op : Nat → Nat → Option Nat) (lamports : Nat) :
    AllOrNothing (Step program rent) s ((setLamportsChecked op lamports).run s) := by
  refine allOrNothing_get_bind ?_
  split
  · exact setLamports_allOrNothing hRent hProgram _
  · exact allOrNothing_throw _

/-- `get_data_mut` and the writes through its slice keep the length of the data. -/
theorem getDataMut_write_allOrNothing (writes : List (Nat × UInt8)) :
    AllOrNothing (Step program rent) s ((do
      let _ ← getDataMut
      modify fun b : BorrowedAccount =>
        { b with account := { b.account with data := writeData writes b.account.data } }).run s) := by
  simp only [getDataMut, bind_assoc, pure_bind]
  refine allOrNothing_get_bind (allOrNothing_liftExcept_bind fun _ hChanged => ?_)
  refine allOrNothing_get_bind (allOrNothing_liftExcept_bind fun _ _ => ?_)
  refine allOrNothing_get_bind (allOrNothing_modify ?_)
  obtain ⟨hExecutable, hWritable, hOwner⟩ := canDataBeChanged_eq_ok hRent hProgram hChanged
  exact Step.of_change (.data hOwner hWritable hExecutable (.inl (length_writeData writes _))) _

theorem setData_allOrNothing (data : List UInt8) :
    AllOrNothing (Step program rent) s ((setData data).run s) := by
  refine allOrNothing_get_bind (allOrNothing_liftExcept_bind fun _ hResized => ?_)
  refine allOrNothing_get_bind (allOrNothing_liftExcept_bind fun _ hChanged => ?_)
  refine allOrNothing_get_bind (allOrNothing_liftExcept_bind fun _ _ => ?_)
  obtain ⟨-, hLength⟩ := canDataBeResized_eq_ok hRent hProgram hResized
  obtain ⟨hExecutable, hWritable, hOwner⟩ := canDataBeChanged_eq_ok hRent hProgram hChanged
  exact allOrNothing_modify_modify
    (Step.of_change (.data hOwner hWritable hExecutable (.inr hLength)) _)

theorem setDataLength_allOrNothing (newLength : Nat) :
    AllOrNothing (Step program rent) s ((setDataLength newLength).run s) := by
  refine allOrNothing_get_bind (allOrNothing_liftExcept_bind fun _ hResized => ?_)
  refine allOrNothing_get_bind (allOrNothing_liftExcept_bind fun _ hChanged => ?_)
  refine allOrNothing_get_bind ?_
  dsimp only
  split
  · exact allOrNothing_pure _ Step.stay
  · refine allOrNothing_get_bind (allOrNothing_liftExcept_bind fun _ _ => ?_)
    obtain ⟨-, hLength⟩ := canDataBeResized_eq_ok hRent hProgram hResized
    obtain ⟨hExecutable, hWritable, hOwner⟩ := canDataBeChanged_eq_ok hRent hProgram hChanged
    refine allOrNothing_modify_modify
      (Step.of_change (.data hOwner hWritable hExecutable (.inr ?_)) _)
    simp only [List.length_append, List.length_take, List.length_replicate]
    omega

theorem extendFromSlice_allOrNothing (data : List UInt8) :
    AllOrNothing (Step program rent) s ((extendFromSlice data).run s) := by
  refine allOrNothing_get_bind ?_
  refine allOrNothing_get_bind (allOrNothing_liftExcept_bind fun _ hResized => ?_)
  refine allOrNothing_get_bind (allOrNothing_liftExcept_bind fun _ hChanged => ?_)
  dsimp only
  split
  · exact allOrNothing_pure _ Step.stay
  · refine allOrNothing_get_bind (allOrNothing_liftExcept_bind fun _ _ => ?_)
    obtain ⟨-, hLength⟩ := canDataBeResized_eq_ok hRent hProgram hResized
    obtain ⟨hExecutable, hWritable, hOwner⟩ := canDataBeChanged_eq_ok hRent hProgram hChanged
    refine allOrNothing_modify_modify
      (Step.of_change (.data hOwner hWritable hExecutable (.inr ?_)) _)
    -- the saturated length is below `usize::MAX`, so it is the plain sum
    rw [List.length_append]
    exact add_le_of_saturatingAdd_le hLength (by decide)

theorem setState_allOrNothing (serialized : Option (List UInt8)) :
    AllOrNothing (Step program rent) s ((setState serialized).run s) := by
  simp only [setState, getDataMut, bind_assoc, pure_bind]
  refine allOrNothing_get_bind (allOrNothing_liftExcept_bind fun _ hChanged => ?_)
  refine allOrNothing_get_bind (allOrNothing_liftExcept_bind fun _ _ => ?_)
  refine allOrNothing_get_bind ?_
  split
  · rename_i bytes
    refine allOrNothing_failIf_bind fun hFits => allOrNothing_modify ?_
    obtain ⟨hExecutable, hWritable, hOwner⟩ := canDataBeChanged_eq_ok hRent hProgram hChanged
    have hFits' : bytes.length ≤ s.account.data.length := Nat.le_of_not_lt hFits
    refine Step.of_change (.data hOwner hWritable hExecutable (.inl ?_)) _
    simp only [getData_eq, List.length_append, List.length_drop]
    omega
  · exact allOrNothing_throw _

theorem setExecutable_allOrNothing (isExecutable : Bool) :
    AllOrNothing (Step program rent) s ((setExecutable isExecutable).run s) := by
  refine allOrNothing_get_bind ?_
  dsimp only
  split
  · rename_i rent' hRent'
    obtain rfl : rent' = rent := Option.some.inj (hRent'.symm.trans hRent)
    refine allOrNothing_failIf_bind fun hExempt => ?_
    refine allOrNothing_failIf_bind fun hOwned => ?_
    refine allOrNothing_failIf_bind fun hWritable => ?_
    refine allOrNothing_failIf_bind fun hClear => ?_
    split
    · exact allOrNothing_pure _ Step.stay
    · rename_i hChanged
      refine allOrNothing_liftExcept_bind fun _ _ => allOrNothing_modify ?_
      -- the flag only goes from false to true
      obtain ⟨hWasNot, rfl⟩ : s.account.executable = false ∧ isExecutable = true := by
        cases hExecutable : s.account.executable <;> cases isExecutable <;> simp_all
      exact Step.of_change (.executable ((isOwnedByCurrentProgram_iff hProgram).mp
        (by simpa using hOwned)) (by simpa using hWritable) hWasNot (by simpa using hExempt)) _
  · rename_i hNone
    exact absurd hRent (hNone rent)

end Spec

/-- A chain of steps keeps the frame's writability and changes the account by a chain of changes
of the rules. -/
theorem Step.changes {s' : BorrowedAccount} (h : ReflTransGen (Step program rent) s s') :
    s'.isWritable = s.isWritable ∧ ReflTransGen (Change program s.isWritable rent) s.account s'.account := by
  induction h with
  | refl => exact ⟨rfl, .refl⟩
  | tail _ hStep ih =>
      obtain ⟨hWritable, hChanges⟩ := ih
      obtain ⟨a, d, rfl, hOne⟩ := hStep
      refine ⟨(update_isWritable a d).trans hWritable, ?_⟩
      cases hOne with
      | refl => exact hChanges
      | single hChange => exact hChanges.tail (hWritable ▸ hChange)

/-! ### What a method that returned wrote

The account a method leaves behind when it returns, whatever the frame: the callers of the
system program read their effect on the account from these lemmas and never unfold a method. -/

section Returned

open Lib.EState

variable {b b' : BorrowedAccount} {u : Unit}

theorem setLamports_eq_ok {lamports : Nat} (h : (setLamports lamports).run b = .ok u b') :
    b'.account = { b.account with lamports } := by
  simp only [setLamports, run_bind_eq_ok, EStateM.run_get, EStateM.Result.ok.injEq] at h
  obtain ⟨_, _, ⟨rfl, rfl⟩, h⟩ := h
  split at h
  · simp only [run_bind_eq_ok, run_failIf_eq_ok] at h
    obtain ⟨_, _, ⟨-, rfl⟩, _, _, ⟨-, rfl⟩, _, _, ⟨-, rfl⟩, h⟩ := h
    split at h
    · -- the balance is already the new one: nothing is written
      simp only [EStateM.run_pure, EStateM.Result.ok.injEq] at h
      obtain ⟨-, rfl⟩ := h
      rename_i hSame
      simp [← hSame]
    · simp only [run_bind_eq_ok, run_liftExcept_eq_ok, EStateM.run_modify,
        EStateM.Result.ok.injEq] at h
      obtain ⟨_, _, ⟨-, rfl⟩, -, rfl⟩ := h
      rfl
  · simp only [EStateM.run_modify, EStateM.Result.ok.injEq] at h
    obtain ⟨-, rfl⟩ := h
    rfl

theorem setLamportsChecked_eq_ok {op : Nat → Nat → Option Nat} {lamports : Nat}
    (h : (setLamportsChecked op lamports).run b = .ok u b') :
    ∃ result, op b.account.lamports lamports = some result ∧
      b'.account = { b.account with lamports := result } := by
  simp only [setLamportsChecked, run_bind_eq_ok, EStateM.run_get, EStateM.Result.ok.injEq] at h
  obtain ⟨_, _, ⟨rfl, rfl⟩, h⟩ := h
  split at h
  · exact ⟨_, ‹_›, setLamports_eq_ok h⟩
  · exact absurd h run_throw_ne_ok

theorem checkedAddLamports_eq_ok {lamports : Nat}
    (h : (checkedAddLamports lamports).run b = .ok u b') :
    b.account.lamports + lamports ≤ maxValue 128 ∧
      b'.account = { b.account with lamports := b.account.lamports + lamports } := by
  obtain ⟨result, hAdd, hAccount⟩ := setLamportsChecked_eq_ok h
  obtain ⟨hFits, rfl⟩ := checkedAdd_eq_some.mp hAdd
  exact ⟨hFits, hAccount⟩

theorem checkedSubLamports_eq_ok {lamports : Nat}
    (h : (checkedSubLamports lamports).run b = .ok u b') :
    lamports ≤ b.account.lamports ∧
      b'.account = { b.account with lamports := b.account.lamports - lamports } := by
  obtain ⟨result, hSub, hAccount⟩ := setLamportsChecked_eq_ok h
  obtain ⟨hCovered, rfl⟩ := checkedSub_eq_some.mp hSub
  exact ⟨hCovered, hAccount⟩

theorem getDataMut_eq_ok {data : List UInt8} (h : getDataMut.run b = .ok data b') :
    b' = b ∧ data = b.account.data := by
  simp only [getDataMut, run_bind_eq_ok, EStateM.run_get, run_liftExcept_eq_ok,
    EStateM.run_pure, EStateM.Result.ok.injEq] at h
  obtain ⟨_, _, ⟨rfl, rfl⟩, _, _, ⟨-, rfl⟩, _, _, ⟨rfl, rfl⟩, _, _, ⟨-, rfl⟩, _, _, ⟨rfl, rfl⟩,
    rfl, rfl⟩ := h
  exact ⟨rfl, rfl⟩

/-- `set_owner` that returned: with early verification it checked the rules of an owner change,
even when the owner stays. -/
theorem setOwner_eq_ok {pubkey : Pubkey} (h : (setOwner pubkey).run b = .ok u b') :
    (b.transactionContext.isEarlyVerificationOfAccountModificationsEnabled = true →
      b.isOwnedByCurrentProgram = true ∧ b.isWritable = true ∧ b.account.executable = false ∧
        isZeroed b.account.data = true) ∧
      b'.account = { b.account with owner := pubkey } := by
  simp only [setOwner, run_bind_eq_ok, EStateM.run_get, EStateM.Result.ok.injEq] at h
  obtain ⟨_, _, ⟨rfl, rfl⟩, h⟩ := h
  split at h
  · simp only [run_bind_eq_ok, run_failIf_eq_ok] at h
    obtain ⟨_, _, ⟨hOwned, rfl⟩, _, _, ⟨hWritable, rfl⟩, _, _, ⟨hExecutable, rfl⟩, _, _,
      ⟨hZeroed, rfl⟩, h⟩ := h
    refine ⟨fun _ => ⟨by simpa using hOwned, by simpa using hWritable,
      by simpa using hExecutable, by simpa using hZeroed⟩, ?_⟩
    split at h
    · -- the owner is already the new one: nothing is written
      simp only [EStateM.run_pure, EStateM.Result.ok.injEq] at h
      obtain ⟨-, rfl⟩ := h
      rename_i hSame
      simp [← hSame]
    · simp only [run_bind_eq_ok, run_liftExcept_eq_ok, EStateM.run_modify,
        EStateM.Result.ok.injEq] at h
      obtain ⟨_, _, ⟨-, rfl⟩, -, rfl⟩ := h
      rfl
  · rename_i hLate
    simp only [EStateM.run_modify, EStateM.Result.ok.injEq] at h
    obtain ⟨-, rfl⟩ := h
    exact ⟨fun hEarly => absurd hEarly hLate, rfl⟩

/-- `set_data_length` that returned passed both data checks and resized the data with zeros. -/
theorem setDataLength_eq_ok {newLength : Nat} (h : (setDataLength newLength).run b = .ok u b') :
    b.canDataBeResized newLength = .ok () ∧ b.canDataBeChanged = .ok () ∧
      b'.account = { b.account with
        data := b.account.data.take newLength ++ List.replicate (newLength - b.account.data.length) 0 } := by
  simp only [setDataLength, run_bind_eq_ok, EStateM.run_get, EStateM.Result.ok.injEq,
    run_liftExcept_eq_ok] at h
  obtain ⟨_, _, ⟨rfl, rfl⟩, _, _, ⟨hResized, rfl⟩, _, _, ⟨rfl, rfl⟩, _, _, ⟨hChanged, rfl⟩, _, _,
    ⟨rfl, rfl⟩, h⟩ := h
  refine ⟨hResized, hChanged, ?_⟩
  split at h
  · -- the length is already the new one: nothing is written
    simp only [EStateM.run_pure, EStateM.Result.ok.injEq] at h
    obtain ⟨-, rfl⟩ := h
    rename_i hSame
    simp [← hSame]
  · simp only [run_bind_eq_ok, run_liftExcept_eq_ok, EStateM.run_get, EStateM.Result.ok.injEq,
      updateAccountsResizeDelta, EStateM.run_modify] at h
    obtain ⟨_, _, ⟨rfl, rfl⟩, _, _, ⟨-, rfl⟩, _, _, ⟨-, rfl⟩, -, rfl⟩ := h
    rfl

/-- `set_data` that returned replaced the data. -/
theorem setData_eq_ok {data : List UInt8} (h : (setData data).run b = .ok u b') :
    b'.account = { b.account with data } := by
  simp only [setData, run_bind_eq_ok, EStateM.run_get, EStateM.Result.ok.injEq,
    run_liftExcept_eq_ok] at h
  obtain ⟨_, _, ⟨rfl, rfl⟩, _, _, ⟨-, rfl⟩, _, _, ⟨rfl, rfl⟩, _, _, ⟨-, rfl⟩, _, _, ⟨rfl, rfl⟩,
    _, _, ⟨-, rfl⟩, h⟩ := h
  simp only [updateAccountsResizeDelta, EStateM.run_modify, EStateM.Result.ok.injEq] at h
  obtain ⟨_, _, ⟨-, rfl⟩, -, rfl⟩ := h
  rfl

/-- `set_state` that returned overwrote the front of the data with the serialization. -/
theorem setState_eq_ok {bytes : List UInt8} (h : (setState (some bytes)).run b = .ok u b') :
    bytes.length ≤ b.account.data.length ∧
      b'.account = { b.account with data := bytes ++ b.account.data.drop bytes.length } := by
  simp only [setState, run_bind_eq_ok, run_failIf_eq_ok] at h
  obtain ⟨data, b₁, hData, _, _, ⟨hFits, rfl⟩, h⟩ := h
  obtain ⟨rfl, rfl⟩ := getDataMut_eq_ok hData
  simp only [EStateM.run_modify, EStateM.Result.ok.injEq] at h
  obtain ⟨-, rfl⟩ := h
  exact ⟨Nat.le_of_not_lt hFits, rfl⟩

end Returned

end BorrowedAccount

/-- A borrow that returned wrote back the account the computation left, and the transaction's
resize delta, and nothing else. -/
theorem InstructionContext.withBorrowedInstructionAccount_eq_ok {α : Type} {ic : InstructionContext}
    {tc tc' : TransactionContext} {i : Nat} {f : BorrowedAccountM α} {a : α}
    (h : ic.withBorrowedInstructionAccount tc i f = .ok (a, tc')) :
    ∃ b b', ic.tryBorrowInstructionAccount tc i = .ok b ∧ f.run b = .ok a b' ∧
      tc' = { tc with accounts := tc.accounts.set b.indexInTransaction b'.account
                      accountsResizeDelta := b'.transactionContext.accountsResizeDelta } := by
  simp only [withBorrowedInstructionAccount, Lib.Except.bind_eq_ok] at h
  obtain ⟨b, hBorrow, hRun⟩ := h
  split at hRun
  · rename_i a' b' hOk
    cases hRun
    exact ⟨b, b', hBorrow, hOk, rfl⟩
  · cases hRun

open BorrowedAccount Lib.EState

variable {s : BorrowedAccount} {program : Pubkey} {rent : Rent}

theorem AccountCall.run_allOrNothing (hs : InFrame program rent s) (call : AccountCall) :
    AllOrNothing (Step program rent) s (call.run.run s) := by
  obtain ⟨hRent, hProgram⟩ := hs
  cases call with
  | setOwner pubkey => exact setOwner_allOrNothing hRent hProgram pubkey
  | setLamports lamports => exact setLamports_allOrNothing hRent hProgram lamports
  | checkedAddLamports lamports => exact setLamportsChecked_allOrNothing hRent hProgram _ lamports
  | checkedSubLamports lamports => exact setLamportsChecked_allOrNothing hRent hProgram _ lamports
  | getDataMut writes => exact getDataMut_write_allOrNothing hRent hProgram writes
  | setData data => exact setData_allOrNothing hRent hProgram data
  | setDataFromSlice data => exact setData_allOrNothing hRent hProgram data
  | setDataLength newLength => exact setDataLength_allOrNothing hRent hProgram newLength
  | extendFromSlice data => exact extendFromSlice_allOrNothing hRent hProgram data
  | setState serialized => exact setState_allOrNothing hRent hProgram serialized
  | setExecutable isExecutable => exact setExecutable_allOrNothing hRent hProgram isExecutable

/-- A sequence of calls changes the account by a chain of changes of the rules. -/
theorem runCalls_changes (hs : InFrame program rent s) (calls : List AccountCall) :
    ReflTransGen (Change program s.isWritable rent) s.account (runCalls calls s).account := by
  have hEach : ∀ x ∈ calls.map AccountCall.run, ∀ t, InFrame program rent t →
      AllOrNothing (Step program rent) t (x.run t) := by
    intro x hx t ht
    obtain ⟨call, -, rfl⟩ := List.mem_map.mp hx
    exact AccountCall.run_allOrNothing ht call
  exact (Step.changes (runEach_reflTransGen (fun _ _ ht hStep => Step.inFrame hStep ht) hEach hs).1).2

theorem borrowed_account_calls_keep_account_rules
    (hRent : s.transactionContext.rent = some rent)
    (hProgram : s.instructionContext.getLastProgramKey s.transactionContext = .ok program)
    (calls : List AccountCall) :
    (s.isWritable = false → (runCalls calls s).account = s.account) ∧
    (s.account.owner ≠ program → (runCalls calls s).account.data = s.account.data ∧
      s.account.lamports ≤ (runCalls calls s).account.lamports) ∧
    (s.account.executable = true → (runCalls calls s).account.lamports = s.account.lamports ∧
      (runCalls calls s).account.data = s.account.data ∧
      (runCalls calls s).account.executable = true) ∧
    (∀ (call : AccountCall) (t : BorrowedAccount), InFrame program rent t →
      (state (call.run.run t)).account.owner ≠ t.account.owner →
        t.account.owner = program ∧ t.isWritable = true ∧ t.account.executable = false ∧
          isZeroed t.account.data = true) ∧
    (∀ (call : AccountCall) (t t' : BorrowedAccount) (e : InstructionError), InFrame program rent t →
      call.run.run t = .error e t' → t' = t) := by
  have hChanges := runCalls_changes ⟨hRent, hProgram⟩ calls
  refine ⟨fun hReadonly => ?_, fun hOwner => ?_, fun hExecutable => ?_, ?_, ?_⟩
  · rw [hReadonly] at hChanges
    exact eq_of_changes_of_not_writable hChanges
  · obtain ⟨-, hData, -, hLamports⟩ := changes_of_owner_ne hOwner hChanges
    exact ⟨hData, hLamports⟩
  · obtain ⟨hStill, hLamports, hData, -⟩ := changes_of_executable hExecutable hChanges
    exact ⟨hLamports, hData, hStill⟩
  · intro call t ht hOwnerChanged
    rcases (AccountCall.run_allOrNothing ht call).state_eq_or with hSame | ⟨a, d, hEq, hOne⟩
    · exact absurd (congrArg (·.account.owner) hSame) hOwnerChanged
    · rw [hEq, update_account] at hOwnerChanged
      cases hOne with
      | refl => exact absurd rfl hOwnerChanged
      | single hChange => exact hChange.of_owner_ne hOwnerChanged
  · intro call t t' e ht hError
    have hAtomic := AccountCall.run_allOrNothing ht call
    rw [hError] at hAtomic
    exact hAtomic

/-- A frame of one program account and one read-only instruction account, in a transaction with
a rent. -/
def readonlyBorrowedAccount : BorrowedAccount :=
  ⟨⟨[⟨Vector.replicate 32 8⟩, ⟨Vector.replicate 32 7⟩],
      [⟨10, [0, 0], ⟨Vector.replicate 32 7⟩, false, 0⟩, ⟨1, [], ⟨Vector.replicate 32 9⟩, true, 0⟩],
      5, 64, [], 0, 0, some ⟨1, .finite 2 0, 50⟩, false⟩,
    ⟨0, 0, [1], [⟨0, 0, 0, false, false⟩], []⟩, 0, 1,
    ⟨10, [0, 0], ⟨Vector.replicate 32 7⟩, false, 0⟩⟩

theorem borrowed_account_calls_keep_account_rules_readonly :
    (runCalls [.setLamports 20, .setOwner ⟨Vector.replicate 32 8⟩, .setData [1]]
      readonlyBorrowedAccount).account = readonlyBorrowedAccount.account :=
  (@borrowed_account_calls_keep_account_rules readonlyBorrowedAccount ⟨Vector.replicate 32 7⟩
    ⟨1, .finite 2 0, 50⟩ rfl rfl _).1 rfl

end PutValidator
