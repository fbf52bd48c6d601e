import PutValidator.Sdk.Instruction
import PutValidator.Sdk.Message
import PutValidator.Sdk.TransactionContext
import PutValidator.Lib.List

/-! How a frame is entered. `MessageProcessor::process_message` (`runtime/src/message_processor.rs`)
pushes each top-level instruction with the flags of the message; a running program enters a
callee through `cpi_common` (`programs/bpf_loader/src/syscalls/cpi.rs`), which derives the
signers from the caller's seeds, or, as a builtin, through `InvokeContext::native_invoke`
(`program-runtime/src/invoke_context.rs`) with the signers it passes. Both go through
`prepare_instruction`, which resolves the callee's accounts in the caller's frame, and
`process_instruction`, which pushes the callee's frame; the callee returns by popping it.

The syscall's translation of its arguments out of the VM's memory, the compute meter,
`check_authorized_program` and the account copies of `translate_accounts` are not modelled:
they only refuse calls, or move data the frames do not hold. -/
namespace PutValidator.ProgramRuntime

open Lib.Except Lib.List

/-! ### `prepare_instruction` -/

/-- The first loop of `prepare_instruction`, at one account meta: a key already listed merges
its flags into the first occurrence; a new key is found in the transaction and in the caller's
frame. The state is the deduplicated accounts and, for each meta so far, the index of its
entry. -/
def deduplicateInstructionAccount (tc : TransactionContext) (caller : InstructionContext) :
    List InstructionAccount × List Nat → AccountMeta × Nat →
      Except InstructionError (List InstructionAccount × List Nat)
  | (deduplicated, duplicateIndicies), (accountMeta, instructionAccountIndex) => do
    let indexInTransaction ← okOr (tc.findIndexOfAccount accountMeta.pubkey) .missingAccount
    match deduplicated.findIdx? (·.indexInTransaction == indexInTransaction) with
    | some duplicateIndex =>
        let ia ← okOr deduplicated[duplicateIndex]? .notEnoughAccountKeys
        pure (deduplicated.set duplicateIndex
            { ia with isSigner := ia.isSigner || accountMeta.isSigner
                      isWritable := ia.isWritable || accountMeta.isWritable },
          duplicateIndicies ++ [duplicateIndex])
    | none =>
        let indexInCaller ←
          okOr (caller.findIndexOfInstructionAccount tc accountMeta.pubkey) .missingAccount
        pure (deduplicated ++ [⟨indexInTransaction, indexInCaller, instructionAccountIndex,
            accountMeta.isSigner, accountMeta.isWritable⟩],
          duplicateIndicies ++ [deduplicated.length])

/-- The second loop of `prepare_instruction`: an account is writable in the callee only if it is
in the caller, and a signer only if it is in the caller or the caller signs for its key. -/
def checkInstructionAccountPrivileges (tc : TransactionContext) (caller : InstructionContext)
    (signers : List Pubkey) (deduplicated : List InstructionAccount) :
    Except InstructionError Unit :=
  deduplicated.forM fun ia => do
    let borrowedAccount ← caller.tryBorrowInstructionAccount tc ia.indexInCaller
    failIf (ia.isWritable && !borrowedAccount.isWritable) .privilegeEscalation
    failIf (ia.isSigner && !(borrowedAccount.isSigner || signers.contains borrowedAccount.getKey))
      .privilegeEscalation

/-- `InvokeContext::prepare_instruction`: the callee's instruction accounts, one per account
meta, and its program account. -/
def prepareInstruction (tc : TransactionContext) (instruction : StableInstruction)
    (signers : List Pubkey) : Except InstructionError (List InstructionAccount × List Nat) := do
  let caller ← tc.getCurrentInstructionContext
  let (deduplicated, duplicateIndicies) ←
    instruction.accounts.zipIdx.foldlM (deduplicateInstructionAccount tc caller) ([], [])
  checkInstructionAccountPrivileges tc caller signers deduplicated
  let instructionAccounts ← duplicateIndicies.mapM fun duplicateIndex =>
    okOr deduplicated[duplicateIndex]? .notEnoughAccountKeys
  let programAccountIndex ←
    okOr (caller.findIndexOfInstructionAccount tc instruction.programId) .missingAccount
  let borrowedProgramAccount ← caller.tryBorrowInstructionAccount tc programAccountIndex
  failIf (!borrowedProgramAccount.isExecutable) .accountNotExecutable
  pure (instructionAccounts, [borrowedProgramAccount.indexInTransaction])

/-! ### What `prepare_instruction` guarantees -/

/-- An entry of the callee's accounts that points to the first account of some key in the
transaction, and to an account of the caller with that key. -/
def Resolved (tc : TransactionContext) (caller : InstructionContext) (indices : Nat × Nat) :
    Prop :=
  ∃ key, tc.findIndexOfAccount key = some indices.1 ∧
    ∃ cia, caller.instructionAccounts[indices.2]? = some cia ∧
      tc.accountKeys[cia.indexInTransaction]? = some key

/-- What the first loop keeps after the metas `done`: every entry is resolved, and each meta so
far points to an entry at the first account of its key. -/
def DeduplicationSound (tc : TransactionContext) (caller : InstructionContext)
    (done : List (AccountMeta × Nat)) (state : List InstructionAccount × List Nat) : Prop :=
  (∀ p ∈ state.1.map InstructionAccount.indices, Resolved tc caller p) ∧
    List.Forall₂ (fun (m : AccountMeta × Nat) i =>
      ∃ p, (state.1.map InstructionAccount.indices)[i]? = some p ∧
        tc.findIndexOfAccount m.1.pubkey = some p.1) done state.2

section Prepare

variable {tc : TransactionContext} {caller : InstructionContext}

/-- Merging the flags of a duplicate leaves every entry pointing where it did. -/
theorem indices_merge {deduplicated : List InstructionAccount} {i : Nat}
    {ia : InstructionAccount} (hia : deduplicated[i]? = some ia) (isSigner isWritable : Bool) :
    (deduplicated.set i { ia with isSigner := isSigner, isWritable := isWritable }).map
      InstructionAccount.indices = deduplicated.map InstructionAccount.indices := by
  apply List.ext_getElem?
  intro j
  rw [List.map_set, List.getElem?_set]
  split_ifs with hij hi
  · subst hij
    simp [List.getElem?_map, hia, InstructionAccount.indices]
  · subst hij
    simp only [List.length_map, not_lt] at hi
    simp [List.getElem?_eq_none hi]
  · rfl

/-- Step lemma of the first loop. -/
theorem deduplicateInstructionAccount_sound {done : List (AccountMeta × Nat)}
    {state state' : List InstructionAccount × List Nat} {entry : AccountMeta × Nat}
    (hSound : DeduplicationSound tc caller done state)
    (hStep : deduplicateInstructionAccount tc caller state entry = .ok state') :
    DeduplicationSound tc caller (done ++ [entry]) state' := by
  obtain ⟨deduplicated, duplicateIndicies⟩ := state
  obtain ⟨accountMeta, instructionAccountIndex⟩ := entry
  obtain ⟨hResolved, hIndices⟩ := hSound
  simp only [deduplicateInstructionAccount, bind_eq_ok, okOr_eq_ok] at hStep
  obtain ⟨indexInTransaction, hFind, hStep⟩ := hStep
  split at hStep
  · -- a key already listed: the entry only gains flags
    rename_i duplicateIndex hDuplicate
    simp only [bind_eq_ok, okOr_eq_ok, pure_eq_ok] at hStep
    obtain ⟨ia, hia, rfl⟩ := hStep
    obtain ⟨hLt, hSame, -⟩ := List.findIdx?_eq_some_iff_getElem.mp hDuplicate
    have hiaEq : deduplicated[duplicateIndex] = ia := (List.getElem?_eq_some_iff.mp hia).2
    unfold DeduplicationSound
    dsimp only
    rw [indices_merge hia]
    refine ⟨hResolved, List.rel_append hIndices (List.Forall₂.cons ⟨ia.indices, ?_, ?_⟩ .nil)⟩
    · simp [List.getElem?_map, hia]
    · rw [hFind]
      simp only [beq_iff_eq, hiaEq] at hSame
      simp [InstructionAccount.indices, hSame]
  · -- a new key: a new entry, found in the caller's frame
    simp only [bind_eq_ok, okOr_eq_ok, pure_eq_ok] at hStep
    obtain ⟨indexInCaller, hCaller, rfl⟩ := hStep
    obtain ⟨cia, hcia, hKey⟩ :=
      InstructionContext.findIndexOfInstructionAccount_eq_some hCaller
    refine ⟨?_, List.rel_append (hIndices.imp ?_)
      (List.Forall₂.cons ⟨(indexInTransaction, indexInCaller), ?_, hFind⟩ .nil)⟩
    · intro p hp
      simp only [List.map_append, List.map_cons, List.map_nil, List.mem_append,
        List.mem_singleton] at hp
      rcases hp with hp | rfl
      · exact hResolved p hp
      · exact ⟨accountMeta.pubkey, hFind, cia, hcia, hKey⟩
    · rintro m i ⟨p, hp, hm⟩
      refine ⟨p, ?_, hm⟩
      have hi : i < (deduplicated.map InstructionAccount.indices).length :=
        (List.getElem?_eq_some_iff.mp hp).1
      rw [List.map_append, List.getElem?_append_left hi]
      exact hp
    · simp [InstructionAccount.indices]

/-- The first loop resolves every entry and points each meta to the first account of its
key. -/
theorem deduplicate_sound {metas : List (AccountMeta × Nat)}
    {state : List InstructionAccount × List Nat}
    (h : metas.foldlM (deduplicateInstructionAccount tc caller) ([], []) = .ok state) :
    DeduplicationSound tc caller metas state := by
  have hInit : DeduplicationSound tc caller [] ([], []) := ⟨by simp, .nil⟩
  simpa using foldlM_invariant (DeduplicationSound tc caller)
    (fun _ _ _ _ hSound hStep => deduplicateInstructionAccount_sound hSound hStep) hInit h

/-- The second loop passes only if each entry's flags are backed by the caller's account. -/
theorem checkInstructionAccountPrivileges_eq_ok {signers : List Pubkey}
    {deduplicated : List InstructionAccount} {u : Unit}
    (h : checkInstructionAccountPrivileges tc caller signers deduplicated = .ok u) :
    ∀ ia ∈ deduplicated, ∃ cia, caller.instructionAccounts[ia.indexInCaller]? = some cia ∧
      (ia.isWritable = true → cia.isWritable = true) ∧
      (ia.isSigner = true →
        cia.isSigner = true ∨ (tc.accountKeys[cia.indexInTransaction]?).getD default ∈ signers) := by
  intro ia hia
  have hChecks := forM_eq_ok.mp h ia hia
  simp only [bind_eq_ok] at hChecks
  obtain ⟨borrowed, hBorrow, _, hWritable, hSigner⟩ := hChecks
  obtain ⟨cia, hcia, hW, hS, hKey⟩ :=
    InstructionContext.tryBorrowInstructionAccount_eq_ok hBorrow
  refine ⟨cia, hcia, fun hw => ?_, fun hs => ?_⟩
  · simp only [failIf_eq_ok, hw, Bool.true_and, Bool.not_eq_true', hW] at hWritable
    simpa using hWritable
  · simp only [failIf_eq_ok, hs, Bool.true_and, Bool.not_eq_true', hS, hKey] at hSigner
    cases hc : cia.isSigner with
    | true => exact .inl rfl
    | false => exact .inr (by simpa [hc] using hSigner)

/-- What a successful `prepare_instruction` returns: one account per meta, at the first account
of the meta's key, each backed by an account of the caller with that key. -/
theorem prepareInstruction_eq_ok {instruction : StableInstruction} {signers : List Pubkey}
    {instructionAccounts : List InstructionAccount} {programIndices : List Nat}
    (h : prepareInstruction tc instruction signers = .ok (instructionAccounts, programIndices)) :
    ∃ caller, tc.instructionStack.getLast? = some caller ∧
      List.Forall₂ (fun (m : AccountMeta) ia =>
        tc.findIndexOfAccount m.pubkey = some ia.indexInTransaction)
        instruction.accounts instructionAccounts ∧
      ∀ ia ∈ instructionAccounts, ∃ key, tc.findIndexOfAccount key = some ia.indexInTransaction ∧
        ∃ cia ∈ caller.instructionAccounts, tc.accountKeys[cia.indexInTransaction]? = some key ∧
          (ia.isWritable = true → cia.isWritable = true) ∧
          (ia.isSigner = true → cia.isSigner = true ∨ key ∈ signers) := by
  simp only [prepareInstruction, bind_eq_ok, TransactionContext.getCurrentInstructionContext_eq_ok]
    at h
  obtain ⟨caller, hCaller, ⟨deduplicated, duplicateIndicies⟩, hFold, h⟩ := h
  obtain ⟨_, hCheck, entries, hEntries, _, -, _, -, _, -, hResult⟩ := h
  obtain ⟨rfl, -⟩ := Prod.mk.inj (pure_eq_ok.mp hResult)
  obtain ⟨hResolved, hIndices⟩ := deduplicate_sound hFold
  have hMap := mapM_eq_ok.mp hEntries
  refine ⟨caller, hCaller, ?_, fun ia hia => ?_⟩
  · -- each meta's entry is the one its duplicate index names
    have hComp := forall₂_comp (fun (m : AccountMeta × Nat) i ia hm (hia : okOr _ _ = _) => by
      obtain ⟨p, hp, hFind⟩ := hm
      rw [okOr_eq_ok] at hia
      rw [List.getElem?_map, hia, Option.map_some, Option.some.injEq] at hp
      subst hp
      exact hFind) hIndices hMap
    rw [← List.zipIdx_map_fst 0 instruction.accounts]
    exact List.forall₂_map_left_iff.mpr hComp
  · obtain ⟨i, -, hi⟩ := forall₂_exists_of_mem_right hMap hia
    have hMem : ia ∈ deduplicated := List.mem_of_getElem? (okOr_eq_ok.mp hi)
    obtain ⟨key, hFind, cia, hcia, hKey⟩ :=
      hResolved ia.indices (List.mem_map_of_mem hMem)
    obtain ⟨cia', hcia', hWritable, hSigner⟩ := checkInstructionAccountPrivileges_eq_ok hCheck ia hMem
    have hSame : cia' = cia := Option.some.inj (hcia'.symm.trans hcia)
    subst hSame
    refine ⟨key, hFind, cia', List.mem_of_getElem? hcia', hKey, hWritable, fun hs => ?_⟩
    simpa [hKey] using hSigner hs

end Prepare

/-! ### Pushing a frame -/

/-- Whether the last program of a frame is `programId`. -/
def lastProgramIs (tc : TransactionContext) (programId : Pubkey)
    (ic : Except InstructionError InstructionContext) : Bool :=
  match ic >>= (·.tryBorrowLastProgramAccount tc) with
  | .ok programAccount => programAccount.getKey == programId
  | .error _ => false

/-- `InvokeContext::push`: a program already on the stack may be entered again only from
itself. (At the top level without early verification the source also copies the accounts for
the checks after the instruction; that path is not modelled.) -/
def InvokeContext.push (tc : TransactionContext) (next : InstructionContext) :
    Except InstructionError TransactionContext := do
  let programId ← (next.getLastProgramKey tc).mapError fun _ => .unsupportedProgramId
  if tc.getInstructionContextStackHeight ≠ 0 then
    let contains := (List.range tc.getInstructionContextStackHeight).any fun level =>
      lastProgramIs tc programId (tc.getInstructionContextAtNestingLevel level)
    let isLast := lastProgramIs tc programId tc.getCurrentInstructionContext
    failIf (contains && !isLast) .reentrancyNotAllowed
  tc.push next

/-- `InvokeContext::process_instruction` up to the callee's first step: its frame is configured
and pushed. The callee's own invocations follow, and its return pops the frame. (Without early
verification the caller's accounts are first compared with their copies; not modelled.) -/
def processInstruction (tc : TransactionContext) (instructionData : List UInt8)
    (instructionAccounts : List InstructionAccount) (programIndices : List Nat) :
    Except InstructionError TransactionContext :=
  InvokeContext.push tc (InstructionContext.configure programIndices instructionAccounts instructionData)

/-- The reentrancy check only refuses. -/
theorem InvokeContext.push_eq_ok {tc tc' : TransactionContext} {next : InstructionContext}
    (h : InvokeContext.push tc next = .ok tc') : tc.push next = .ok tc' := by
  simp only [InvokeContext.push, bind_eq_ok] at h
  obtain ⟨_, -, h⟩ := h
  split at h
  · simp only [bind_eq_ok] at h
    obtain ⟨_, -, h⟩ := h
    exact h
  · exact h

/-- A successful `process_instruction` pushes the callee's frame with the given accounts. -/
theorem processInstruction_eq_ok {tc tc' : TransactionContext} {instructionData : List UInt8}
    {instructionAccounts : List InstructionAccount} {programIndices : List Nat}
    (h : processInstruction tc instructionData instructionAccounts programIndices = .ok tc') :
    ∃ sum, tc' = { tc with
      instructionStack := tc.instructionStack ++
        [⟨tc.instructionStack.length, sum, programIndices, instructionAccounts, instructionData⟩]
      instructionTraceLength := tc.instructionTraceLength + 1 } :=
  TransactionContext.push_eq_ok (InvokeContext.push_eq_ok h)

/-- `InvokeContext::native_invoke`: a builtin program calls another with the signers it
passes. -/
def nativeInvoke (tc : TransactionContext) (instruction : StableInstruction)
    (signers : List Pubkey) : Except InstructionError TransactionContext := do
  let (instructionAccounts, programIndices) ← prepareInstruction tc instruction signers
  processInstruction tc instruction.data instructionAccounts programIndices

theorem nativeInvoke_eq_ok {tc tc' : TransactionContext} {instruction : StableInstruction}
    {signers : List Pubkey} (h : nativeInvoke tc instruction signers = .ok tc') :
    ∃ instructionAccounts programIndices,
      prepareInstruction tc instruction signers = .ok (instructionAccounts, programIndices) ∧
      processInstruction tc instruction.data instructionAccounts programIndices = .ok tc' := by
  simp only [nativeInvoke, bind_eq_ok] at h
  obtain ⟨⟨instructionAccounts, programIndices⟩, hPrepare, hProcess⟩ := h
  exact ⟨instructionAccounts, programIndices, hPrepare, hProcess⟩

/-- The top-level instruction accounts of `MessageProcessor::process_message`: the flags come
from the message, and a repeated index points to its first occurrence. -/
def topLevelInstructionAccounts (message : SanitizedMessage) (accounts : List UInt8) :
    List InstructionAccount :=
  accounts.zipIdx.map fun (indexInTransaction, instructionAccountIndex) =>
    { indexInTransaction := indexInTransaction.toNat
      indexInCaller := indexInTransaction.toNat
      indexInCallee := ((accounts.take instructionAccountIndex).findIdx?
        (· == indexInTransaction)).getD instructionAccountIndex
      isSigner := message.isSigner indexInTransaction.toNat
      isWritable := message.isWritable indexInTransaction.toNat }

/-- Every top-level account takes the message's flags at its index. -/
theorem mem_topLevelInstructionAccounts {message : SanitizedMessage} {accounts : List UInt8}
    {ia : InstructionAccount} (h : ia ∈ topLevelInstructionAccounts message accounts) :
    ∃ index ∈ accounts, ia.indexInTransaction = index.toNat ∧
      ia.isSigner = message.isSigner index.toNat ∧ ia.isWritable = message.isWritable index.toNat := by
  obtain ⟨⟨index, position⟩, hMem, rfl⟩ := List.mem_map.mp h
  obtain ⟨-, -, hIndex⟩ := List.mem_zipIdx hMem
  refine ⟨index, ?_, rfl, rfl, rfl⟩
  rw [hIndex]
  exact List.getElem_mem _

/-! ### `cpi_common` -/

/-- `MAX_SIGNERS`. -/
def maxSigners : Nat := 16

/-- The errors of a CPI syscall: a `SyscallError`, or an `InstructionError`, both boxed into the
syscall's `Error`. -/
inductive CpiError
  | tooManySigners
  | badSeeds (error : PubkeyError)
  | instruction (error : InstructionError)
deriving DecidableEq, Repr

section

variable (sha256 : List UInt8 → Hash) (bytesAreCurvePoint : Hash → Bool)

/-- `translate_signers`: the addresses the caller program derives from its seeds. -/
def translateSigners (programId : Pubkey) (signersSeeds : List (List (List UInt8))) :
    Except CpiError (List Pubkey) :=
  if 0 < signersSeeds.length then do
    failIf (maxSigners < signersSeeds.length) .tooManySigners
    signersSeeds.mapM fun seeds => do
      failIf (maxSeeds < seeds.length) (.instruction .maxSeedLengthExceeded)
      (createProgramAddress sha256 bytesAreCurvePoint seeds programId).mapError .badSeeds
  else pure []

/-- The signers of `translate_signers` are addresses derived from the program. -/
theorem translateSigners_eq_ok {programId : Pubkey} {signersSeeds : List (List (List UInt8))}
    {signers : List Pubkey}
    (h : translateSigners sha256 bytesAreCurvePoint programId signersSeeds = .ok signers) :
    ∀ key ∈ signers, ∃ seeds, createProgramAddress sha256 bytesAreCurvePoint seeds programId = .ok key := by
  intro key hKey
  unfold translateSigners at h
  split_ifs at h
  · simp only [bind_eq_ok] at h
    obtain ⟨_, -, h⟩ := h
    obtain ⟨seeds, -, hSeeds⟩ := forall₂_exists_of_mem_right (mapM_eq_ok.mp h) hKey
    simp only [bind_eq_ok, mapError_eq_ok] at hSeeds
    obtain ⟨_, -, hDerive⟩ := hSeeds
    exact ⟨seeds, hDerive⟩
  · simp only [pure_eq_ok] at h
    subst h
    exact absurd hKey List.not_mem_nil

/-- `cpi_common` up to the callee's first step. -/
def cpiCommon (tc : TransactionContext) (instruction : StableInstruction)
    (signersSeeds : List (List (List UInt8))) : Except CpiError TransactionContext := do
  let ic ← tc.getCurrentInstructionContext.mapError .instruction
  let callerProgramId ← (ic.getLastProgramKey tc).mapError .instruction
  let signers ← translateSigners sha256 bytesAreCurvePoint callerProgramId signersSeeds
  -- the owner of the caller's program account decides the account layout of the syscall only
  let _ ← (ic.tryBorrowLastProgramAccount tc).mapError .instruction
  let (instructionAccounts, programIndices) ←
    (prepareInstruction tc instruction signers).mapError .instruction
  (processInstruction tc instruction.data instructionAccounts programIndices).mapError .instruction

/-- A successful `cpi_common` prepares the callee with signers derived from the caller's
program, and pushes its frame. -/
theorem cpiCommon_eq_ok {tc tc' : TransactionContext} {instruction : StableInstruction}
    {signersSeeds : List (List (List UInt8))}
    (h : cpiCommon sha256 bytesAreCurvePoint tc instruction signersSeeds = .ok tc') :
    ∃ caller programId signers instructionAccounts programIndices,
      tc.instructionStack.getLast? = some caller ∧ caller.getLastProgramKey tc = .ok programId ∧
      (∀ key ∈ signers, ∃ seeds,
        createProgramAddress sha256 bytesAreCurvePoint seeds programId = .ok key) ∧
      prepareInstruction tc instruction signers = .ok (instructionAccounts, programIndices) ∧
      processInstruction tc instruction.data instructionAccounts programIndices = .ok tc' := by
  simp only [cpiCommon, bind_eq_ok, mapError_eq_ok,
    TransactionContext.getCurrentInstructionContext_eq_ok] at h
  obtain ⟨caller, hCaller, programId, hProgram, signers, hSigners, _, -,
    ⟨instructionAccounts, programIndices⟩, hPrepare, hProcess⟩ := h
  exact ⟨caller, programId, signers, instructionAccounts, programIndices, hCaller, hProgram,
    translateSigners_eq_ok sha256 bytesAreCurvePoint hSigners, hPrepare, hProcess⟩

/-! ### Runs of invocations -/

/-- What happens to the frames of a transaction: a top-level instruction starts, the running
program invokes another through the syscall or as a builtin, or the running program returns. -/
inductive InvokeEvent
  | processMessageInstruction (instruction : CompiledInstruction) (programIndices : List Nat)
  | cpi (instruction : StableInstruction) (signersSeeds : List (List (List UInt8)))
  | nativeInvoke (instruction : StableInstruction) (signers : List Pubkey)
  | pop

/-- One event; an error ends the transaction. -/
def invokeStep (message : SanitizedMessage) (tc : TransactionContext) :
    InvokeEvent → Except CpiError TransactionContext
  | .processMessageInstruction instruction programIndices =>
      (processInstruction tc instruction.data
        (topLevelInstructionAccounts message instruction.accounts) programIndices).mapError
        .instruction
  | .cpi instruction signersSeeds => cpiCommon sha256 bytesAreCurvePoint tc instruction signersSeeds
  | .nativeInvoke instruction signers =>
      (nativeInvoke tc instruction signers).mapError .instruction
  | .pop => tc.pop.mapError .instruction

end

end PutValidator.ProgramRuntime
