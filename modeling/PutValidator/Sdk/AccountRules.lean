import Mathlib
import PutValidator.Sdk.TransactionContext

/-! The rules for what a program may do to an account during an instruction, as a relation
between the account before and after one change. A program may change the balance of a
writable account that is not executable, and lower it only on its own accounts; it may give
away, rewrite or mark executable only its own writable accounts, never an executable one, the
owner only while the data is zero and the executable flag only at a rent-exempt balance; and
no one changes the rent epoch. The source enforces the rules twice: as each change is made
(`BorrowedAccount`, with early verification) and after the instruction, comparing the account
with its state before (`PreAccount::verify`). This module derives what any chain of allowed
changes keeps. -/
namespace PutValidator

/-- One change of an account that program `program` may make, in a frame that may write the
account when `isWritable`, in a transaction with rent `rent`. -/
inductive Change (program : Pubkey) (isWritable : Bool) (rent : Rent) :
    AccountSharedData → AccountSharedData → Prop
  | lamports {a : AccountSharedData} {lamports : Nat} (hWritable : isWritable = true)
      (hExecutable : a.executable = false) (hSpend : a.owner ≠ program → a.lamports ≤ lamports) :
      Change program isWritable rent a { a with lamports }
  | owner {a : AccountSharedData} {owner : Pubkey} (hOwner : a.owner = program)
      (hWritable : isWritable = true) (hExecutable : a.executable = false)
      (hZeroed : isZeroed a.data = true) :
      Change program isWritable rent a { a with owner }
  | data {a : AccountSharedData} {data : List UInt8} (hOwner : a.owner = program)
      (hWritable : isWritable = true) (hExecutable : a.executable = false)
      (hLength : data.length = a.data.length ∨ data.length ≤ maxPermittedDataLength) :
      Change program isWritable rent a { a with data }
  | executable {a : AccountSharedData} (hOwner : a.owner = program)
      (hWritable : isWritable = true) (hExecutable : a.executable = false)
      (hExempt : rent.isExempt a.lamports a.data.length = true) :
      Change program isWritable rent a { a with executable := true }

open Relation

variable {program : Pubkey} {isWritable : Bool} {rent : Rent} {a a' pre cur : AccountSharedData}

namespace Change

theorem isWritable_eq_true (h : Change program isWritable rent a a') : isWritable = true := by
  cases h <;> assumption

theorem rentEpoch_eq (h : Change program isWritable rent a a') : a'.rentEpoch = a.rentEpoch := by
  cases h <;> rfl

/-- A change of owner is made by the owner, on a writable account that is not executable and
whose data is zero. -/
theorem of_owner_ne (h : Change program isWritable rent a a') (hOwner : a'.owner ≠ a.owner) :
    a.owner = program ∧ isWritable = true ∧ a.executable = false ∧ isZeroed a.data = true := by
  cases h with
  | owner hOwner' hWritable hExecutable hZeroed => exact ⟨hOwner', hWritable, hExecutable, hZeroed⟩
  | lamports | data | executable => exact absurd rfl hOwner

end Change

/-- A frame that may not write an account cannot change it. -/
theorem eq_of_changes_of_not_writable (h : ReflTransGen (Change program false rent) pre cur) :
    cur = pre := by
  induction h with
  | refl => rfl
  | tail _ hStep _ => exact absurd hStep.isWritable_eq_true Bool.false_ne_true

/-- An account that is not the program's keeps its owner, data and executable flag, and its
balance does not go down. -/
theorem changes_of_owner_ne (hOwner : pre.owner ≠ program)
    (h : ReflTransGen (Change program isWritable rent) pre cur) :
    cur.owner = pre.owner ∧ cur.data = pre.data ∧ cur.executable = pre.executable ∧
      pre.lamports ≤ cur.lamports := by
  induction h with
  | refl => exact ⟨rfl, rfl, rfl, le_rfl⟩
  | tail _ hStep ih =>
      obtain ⟨hSameOwner, hData, hExecutable, hLamports⟩ := ih
      have hNotOwned : ∀ {b : AccountSharedData}, b.owner = pre.owner → b.owner ≠ program :=
        fun hb => hb ▸ hOwner
      cases hStep with
      | lamports _ _ hSpend =>
          exact ⟨hSameOwner, hData, hExecutable, hLamports.trans (hSpend (hNotOwned hSameOwner))⟩
      | owner hOwner' | data hOwner' | executable hOwner' =>
          exact absurd hOwner' (hNotOwned hSameOwner)

/-- An executable account stays executable and keeps its balance, data and owner. -/
theorem changes_of_executable (hExecutable : pre.executable = true)
    (h : ReflTransGen (Change program isWritable rent) pre cur) :
    cur.executable = true ∧ cur.lamports = pre.lamports ∧ cur.data = pre.data ∧
      cur.owner = pre.owner := by
  induction h with
  | refl => exact ⟨hExecutable, rfl, rfl, rfl⟩
  | tail _ hStep ih =>
      obtain ⟨hStillExecutable, hLamports, hData, hOwner⟩ := ih
      cases hStep with
      | lamports _ hNotExecutable | owner _ _ hNotExecutable | data _ _ hNotExecutable =>
          exact absurd hStillExecutable (by simp [hNotExecutable])
      | executable => exact ⟨rfl, hLamports, hData, hOwner⟩

/-! ### The check after the instruction -/

section PreAccount

open Lib.Except

/-- `PreAccount::verify` (`program-runtime/src/pre_account.rs`): without early verification, the
runtime compares each account of an instruction, once its program returned, with its state
before, under the program `programId` of the frame. The rent is the invoke context's. -/
def PreAccount.verify (programId : Pubkey) (isWritable : Bool) (rent : Rent)
    (pre post : AccountSharedData) : Except InstructionError Unit := do
  let ownerChanged := pre.owner ≠ post.owner
  failIf (ownerChanged ∧ (isWritable = false ∨ pre.executable = true ∨ programId ≠ pre.owner ∨
    isZeroed post.data = false)) .modifiedProgramId
  failIf (programId ≠ pre.owner ∧ post.lamports < pre.lamports) .externalAccountLamportSpend
  if pre.lamports ≠ post.lamports then
    failIf (isWritable = false) .readonlyLamportChange
    failIf (pre.executable = true) .executableLamportChange
  failIf (maxPermittedDataLength < post.data.length) .invalidRealloc
  failIf (pre.data.length ≠ post.data.length ∧ programId ≠ pre.owner) .accountDataSizeChanged
  if ¬(programId = pre.owner ∧ isWritable = true ∧ pre.executable = false) ∧
      pre.data ≠ post.data then
    if pre.executable = true then throw .executableDataModified
    else if isWritable = true then throw .externalAccountDataModified
    else throw .readonlyDataModified
  if pre.executable ≠ post.executable then
    failIf (rent.isExempt post.lamports post.data.length = false) .executableAccountNotRentExempt
    failIf (isWritable = false ∨ pre.executable = true ∨ programId ≠ post.owner)
      .executableModified
  failIf (pre.rentEpoch ≠ post.rentEpoch) .rentEpochModified

/-- An account that passed the check and changed owner was the program's, and its data is
zero. -/
theorem PreAccount.verify_owner {programId : Pubkey} {isWritable : Bool} {rent : Rent}
    {pre post : AccountSharedData} (h : PreAccount.verify programId isWritable rent pre post = .ok ())
    (hOwner : pre.owner ≠ post.owner) : programId = pre.owner ∧ isZeroed post.data = true := by
  simp only [PreAccount.verify, bind_eq_ok, failIf_eq_ok] at h
  obtain ⟨_, hChecked, -⟩ := h
  simp only [not_and, not_or, not_not, Bool.not_eq_false] at hChecked
  obtain ⟨-, -, hProgram, hZeroed⟩ := hChecked hOwner
  exact ⟨hProgram, hZeroed⟩

end PreAccount

end PutValidator
