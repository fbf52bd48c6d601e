import PutValidator.ProgramRuntime.InvokeContext

/-! Cross-program invocation never escalates privileges. Over every run of a transaction's
frames (`Reachable`), every account a frame holds as writable is writable in the message, and
every account it holds as a signer either signs the transaction or is an address derived from
the program of a frame below it. The run invariant `StackBacked` adds that every instruction
account sits at the first account of its key in the transaction: the caller's account of a key
is then the callee's, even when the runtime has loaded a program's loader a second time after
the message's keys. -/
namespace PutValidator.ProgramRuntime

open Lib.Except Lib.List

section

variable (sha256 : List UInt8 → Hash) (bytesAreCurvePoint : Hash → Bool)
  (message : SanitizedMessage)

/-- A key that a frame below `depth` vouches for: an address derived from its last program. -/
def DerivedBelow (tc : TransactionContext) (depth : Nat) (key : Pubkey) : Prop :=
  ∃ d < depth, ∃ frame, tc.instructionStack[d]? = some frame ∧ ∃ programId seeds,
    frame.getLastProgramKey tc = .ok programId ∧
    createProgramAddress sha256 bytesAreCurvePoint seeds programId = .ok key

/-- The flags of an account of the frame at `depth` are backed by the transaction. -/
def PrivilegesBacked (tc : TransactionContext) (depth : Nat) (ia : InstructionAccount) : Prop :=
  (ia.isWritable = true → message.isWritable ia.indexInTransaction = true) ∧
  (ia.isSigner = true → message.isSigner ia.indexInTransaction = true ∨
    ∃ key, tc.accountKeys[ia.indexInTransaction]? = some key ∧
      DerivedBelow sha256 bytesAreCurvePoint tc depth key)

/-- The run invariant over the frames of a transaction. -/
structure StackBacked (tc : TransactionContext) : Prop where
  first_index : ∀ (d : Nat) (frame : InstructionContext), tc.instructionStack[d]? = some frame →
    ∀ ia ∈ frame.instructionAccounts, ∃ key, tc.findIndexOfAccount key = some ia.indexInTransaction
  backed : ∀ (d : Nat) (frame : InstructionContext), tc.instructionStack[d]? = some frame →
    ∀ ia ∈ frame.instructionAccounts, PrivilegesBacked sha256 bytesAreCurvePoint message tc d ia

/-- A signer a builtin may pass: an address derived from its own program, or a key that already
signs its frame. -/
def SignerBacked (tc : TransactionContext) (caller : InstructionContext) (key : Pubkey) : Prop :=
  (∃ programId seeds, caller.getLastProgramKey tc = .ok programId ∧
    createProgramAddress sha256 bytesAreCurvePoint seeds programId = .ok key) ∨
  ∃ cia ∈ caller.instructionAccounts, cia.isSigner = true ∧
    tc.accountKeys[cia.indexInTransaction]? = some key

/-- The events the runtime takes: the message processor runs the message's own instructions, and
a builtin passes only signers it can vouch for. -/
def InvokeEvent.Admissible (tc : TransactionContext) : InvokeEvent → Prop
  | .processMessageInstruction instruction _ => instruction ∈ message.instructions
  | .nativeInvoke _ signers => ∀ caller, tc.instructionStack.getLast? = some caller →
      ∀ key ∈ signers, SignerBacked sha256 bytesAreCurvePoint tc caller key
  | _ => True

/-- The states of a transaction's frames from `start` on. -/
inductive Reachable (start : TransactionContext) : TransactionContext → Prop
  | start : Reachable start start
  | step {tc tc' : TransactionContext} {event : InvokeEvent} : Reachable start tc →
      event.Admissible sha256 bytesAreCurvePoint message tc →
      invokeStep sha256 bytesAreCurvePoint message tc event = .ok tc' → Reachable start tc'

end

/-! ### Frames below a depth -/

section Frames

variable {sha256 : List UInt8 → Hash} {bytesAreCurvePoint : Hash → Bool}
  {message : SanitizedMessage} {tc tc' : TransactionContext}

/-- A vouching frame below `depth` stays one while the frames below `depth` stay. -/
theorem DerivedBelow.mono {depth depth' : Nat} {key : Pubkey}
    (hKeys : tc'.accountKeys = tc.accountKeys)
    (hStack : ∀ d < depth, tc'.instructionStack[d]? = tc.instructionStack[d]?)
    (hDepth : depth ≤ depth') (h : DerivedBelow sha256 bytesAreCurvePoint tc depth key) :
    DerivedBelow sha256 bytesAreCurvePoint tc' depth' key := by
  obtain ⟨d, hd, frame, hFrame, programId, seeds, hProgram, hDerive⟩ := h
  refine ⟨d, Nat.lt_of_lt_of_le hd hDepth, frame, ?_, programId, seeds, ?_, hDerive⟩
  · rw [hStack d hd, hFrame]
  · rw [InstructionContext.getLastProgramKey_congr hKeys, hProgram]

theorem PrivilegesBacked.mono {depth : Nat} {ia : InstructionAccount}
    (hKeys : tc'.accountKeys = tc.accountKeys)
    (hStack : ∀ d < depth, tc'.instructionStack[d]? = tc.instructionStack[d]?)
    (h : PrivilegesBacked sha256 bytesAreCurvePoint message tc depth ia) :
    PrivilegesBacked sha256 bytesAreCurvePoint message tc' depth ia := by
  refine ⟨h.1, fun hSigner => ?_⟩
  rcases h.2 hSigner with hMessage | ⟨key, hKey, hDerived⟩
  · exact .inl hMessage
  · exact .inr ⟨key, hKeys ▸ hKey, hDerived.mono hKeys hStack le_rfl⟩

/-- Two accounts of frames that hold the same key sit at the same index: the first one of
the key. -/
theorem StackBacked.index_eq (h : StackBacked sha256 bytesAreCurvePoint message tc)
    {d : Nat} {frame : InstructionContext} (hFrame : tc.instructionStack[d]? = some frame)
    {cia : InstructionAccount} (hcia : cia ∈ frame.instructionAccounts) {key : Pubkey} {i : Nat}
    (hKey : tc.accountKeys[cia.indexInTransaction]? = some key)
    (hFind : tc.findIndexOfAccount key = some i) : cia.indexInTransaction = i := by
  obtain ⟨key', hFirst⟩ := h.first_index d frame hFrame cia hcia
  have hSame : key' = key :=
    Option.some.inj ((TransactionContext.findIndexOfAccount_eq_some hFirst).symm.trans hKey)
  subst hSame
  exact Option.some.inj (hFirst.symm.trans hFind)

/-- Step lemma for a pushed frame whose accounts are at first indices and backed at its
depth. -/
theorem StackBacked.push (h : StackBacked sha256 bytesAreCurvePoint message tc)
    {frame : InstructionContext} (hKeys : tc'.accountKeys = tc.accountKeys)
    (hStack : tc'.instructionStack = tc.instructionStack ++ [frame])
    (hFirst : ∀ ia ∈ frame.instructionAccounts,
      ∃ key, tc.findIndexOfAccount key = some ia.indexInTransaction)
    (hBacked : ∀ ia ∈ frame.instructionAccounts,
      PrivilegesBacked sha256 bytesAreCurvePoint message tc' tc.instructionStack.length ia) :
    StackBacked sha256 bytesAreCurvePoint message tc' := by
  have hFindEq : ∀ key, tc'.findIndexOfAccount key = tc.findIndexOfAccount key := fun key => by
    simp only [TransactionContext.findIndexOfAccount, hKeys]
  have hBelow : ∀ d < tc.instructionStack.length,
      tc'.instructionStack[d]? = tc.instructionStack[d]? := fun d hd => by
    rw [hStack, List.getElem?_append_left hd]
  -- a frame of the new stack is an old one, or the pushed one on top
  have hCases : ∀ (d : Nat) (frame' : InstructionContext), tc'.instructionStack[d]? = some frame' →
      (d < tc.instructionStack.length ∧ tc.instructionStack[d]? = some frame') ∨
        (d = tc.instructionStack.length ∧ frame' = frame) := by
    intro d frame' hFrame'
    rw [hStack, List.getElem?_append, List.getElem?_singleton] at hFrame'
    split_ifs at hFrame' with hd hTop
    · exact .inl ⟨hd, hFrame'⟩
    · exact .inr ⟨by omega, (Option.some.inj hFrame').symm⟩
  constructor
  · intro d frame' hFrame' ia hia
    rcases hCases d frame' hFrame' with ⟨-, hOld⟩ | ⟨-, rfl⟩
    · simpa only [hFindEq] using h.first_index d frame' hOld ia hia
    · simpa only [hFindEq] using hFirst ia hia
  · intro d frame' hFrame' ia hia
    rcases hCases d frame' hFrame' with ⟨hd, hOld⟩ | ⟨rfl, rfl⟩
    · exact (h.backed d frame' hOld ia hia).mono hKeys
        fun i hi => hBelow i (Nat.lt_trans hi hd)
    · exact hBacked ia hia

/-- Step lemma for a return: the frames below stay as they are. -/
theorem StackBacked.pop (h : StackBacked sha256 bytesAreCurvePoint message tc)
    (hKeys : tc'.accountKeys = tc.accountKeys)
    (hStack : tc'.instructionStack = tc.instructionStack.dropLast) :
    StackBacked sha256 bytesAreCurvePoint message tc' := by
  have hFindEq : ∀ key, tc'.findIndexOfAccount key = tc.findIndexOfAccount key := fun key => by
    simp only [TransactionContext.findIndexOfAccount, hKeys]
  have hKept : ∀ (d : Nat) (frame : InstructionContext), tc'.instructionStack[d]? = some frame →
      tc.instructionStack[d]? = some frame ∧
        ∀ i < d, tc'.instructionStack[i]? = tc.instructionStack[i]? := by
    intro d frame hFrame
    have hd : d < tc.instructionStack.length - 1 := by
      have := (List.getElem?_eq_some_iff.mp hFrame).1
      simpa [hStack] using this
    refine ⟨?_, fun i hi => ?_⟩
    · rwa [hStack, List.getElem?_dropLast, if_pos hd] at hFrame
    · rw [hStack, List.getElem?_dropLast, if_pos (by omega)]
  constructor
  · intro d frame hFrame ia hia
    simpa only [hFindEq] using h.first_index d frame (hKept d frame hFrame).1 ia hia
  · intro d frame hFrame ia hia
    obtain ⟨hOld, hBelow⟩ := hKept d frame hFrame
    exact (h.backed d frame hOld ia hia).mono hKeys hBelow

/-! ### Entering and leaving frames -/

/-- A key that an account of the frame at `depth` holds as a signer is backed at the first index
of the key. -/
theorem StackBacked.signer_of_mem (h : StackBacked sha256 bytesAreCurvePoint message tc)
    {depth : Nat} {frame : InstructionContext} (hFrame : tc.instructionStack[depth]? = some frame)
    {cia : InstructionAccount} (hcia : cia ∈ frame.instructionAccounts)
    (hSigner : cia.isSigner = true) {key : Pubkey} {i : Nat}
    (hKey : tc.accountKeys[cia.indexInTransaction]? = some key)
    (hFind : tc.findIndexOfAccount key = some i) :
    message.isSigner i = true ∨
      ∃ key', tc.accountKeys[i]? = some key' ∧ DerivedBelow sha256 bytesAreCurvePoint tc depth key' := by
  have hBacked := (h.backed depth frame hFrame cia hcia).2 hSigner
  rwa [h.index_eq hFrame hcia hKey hFind] at hBacked

/-- Step lemma for entering a callee from the current frame: `prepare_instruction`, given
signers the caller vouches for, builds a frame whose flags are backed by the caller's. -/
theorem StackBacked.invoke (h : StackBacked sha256 bytesAreCurvePoint message tc)
    {caller : InstructionContext} (hCaller : tc.instructionStack.getLast? = some caller)
    {instruction : StableInstruction} {signers : List Pubkey}
    (hSigners : ∀ key ∈ signers, SignerBacked sha256 bytesAreCurvePoint tc caller key)
    {instructionAccounts : List InstructionAccount} {programIndices : List Nat}
    {data : List UInt8}
    (hPrepare : prepareInstruction tc instruction signers = .ok (instructionAccounts, programIndices))
    (hProcess : processInstruction tc data instructionAccounts programIndices = .ok tc') :
    StackBacked sha256 bytesAreCurvePoint message tc' := by
  obtain ⟨caller', hCaller', -, hEntries⟩ := prepareInstruction_eq_ok hPrepare
  obtain rfl : caller' = caller := Option.some.inj (hCaller'.symm.trans hCaller)
  obtain ⟨sum, rfl⟩ := processInstruction_eq_ok hProcess
  -- the caller is the frame right below the callee
  have hCallerAt : tc.instructionStack[tc.instructionStack.length - 1]? = some caller' := by
    rwa [List.getLast?_eq_getElem?] at hCaller'
  have hBelow : ∀ d < tc.instructionStack.length - 1,
      (tc.instructionStack ++ [⟨tc.instructionStack.length, sum, programIndices,
        instructionAccounts, data⟩])[d]? = tc.instructionStack[d]? :=
    fun d hd => List.getElem?_append_left (by omega)
  refine h.push rfl rfl (fun ia hia => ?_) (fun ia hia => ?_)
  · obtain ⟨key, hFind, -⟩ := hEntries ia hia
    exact ⟨key, hFind⟩
  obtain ⟨key, hFind, cia, hcia, hKey, hWritable, hSigner⟩ := hEntries ia hia
  have hIndex := h.index_eq hCallerAt hcia hKey hFind
  refine ⟨fun hw => ?_, fun hs => ?_⟩
  · have hBacked := (h.backed _ _ hCallerAt cia hcia).1 (hWritable hw)
    rwa [hIndex] at hBacked
  -- a signer of the caller, or a key the caller vouches for
  rcases hSigner hs with hCia | hSigned
  · exact (h.signer_of_mem hCallerAt hcia hCia hKey hFind).imp_right
      fun ⟨key', hKey', hDerived⟩ => ⟨key', hKey', hDerived.mono (by rfl) hBelow (Nat.sub_le _ _)⟩
  rcases hSigners key hSigned with ⟨programId, seeds, hProgram, hDerive⟩ |
      ⟨cia', hcia', hs', hKey'⟩
  · -- an address derived from the caller's own program
    have hLen : tc.instructionStack.length - 1 < tc.instructionStack.length :=
      Nat.sub_lt (List.length_pos_of_mem (List.mem_of_getLast? hCaller')) Nat.one_pos
    refine .inr ⟨key, TransactionContext.findIndexOfAccount_eq_some hFind,
      tc.instructionStack.length - 1, hLen, caller', ?_,
      programId, seeds, hProgram, hDerive⟩
    rw [List.getElem?_append_left hLen, hCallerAt]
  · -- a key that already signs the caller's frame
    exact (h.signer_of_mem hCallerAt hcia' hs' hKey' hFind).imp_right
      fun ⟨key', hKey', hDerived⟩ => ⟨key', hKey', hDerived.mono (by rfl) hBelow (Nat.sub_le _ _)⟩

/-- Step lemma for a top-level instruction of the message: its accounts take the message's
flags, at indices of the message's distinct keys, which come first in the transaction. -/
theorem StackBacked.processMessageInstruction (h : StackBacked sha256 bytesAreCurvePoint message tc)
    (hKeys : message.accountKeys.iter <+: tc.accountKeys) (hNodup : message.accountKeys.iter.Nodup)
    {instruction : CompiledInstruction}
    (hIndices : ∀ i ∈ instruction.accounts, i.toNat < message.accountKeys.iter.length)
    {programIndices : List Nat}
    (hProcess : processInstruction tc instruction.data
      (topLevelInstructionAccounts message instruction.accounts) programIndices = .ok tc') :
    StackBacked sha256 bytesAreCurvePoint message tc' := by
  obtain ⟨sum, rfl⟩ := processInstruction_eq_ok hProcess
  refine h.push rfl rfl (fun ia hia => ?_) (fun ia hia => ?_)
  · obtain ⟨index, hIndex, hAt, -, -⟩ := mem_topLevelInstructionAccounts hia
    rw [hAt]
    exact ⟨_, findIdx?_beq_of_nodup_prefix hKeys hNodup (hIndices index hIndex)⟩
  · obtain ⟨index, -, hAt, hSigner, hWritable⟩ := mem_topLevelInstructionAccounts hia
    refine ⟨fun hw => ?_, fun hs => .inl ?_⟩
    · rw [hAt, ← hWritable, hw]
    · rw [hAt, ← hSigner, hs]

end Frames

/-! ### Runs -/

section Runs

variable {sha256 : List UInt8 → Hash} {bytesAreCurvePoint : Hash → Bool}
  {message : SanitizedMessage} {tc tc' : TransactionContext}

/-- No event changes the keys of the transaction. -/
theorem invokeStep_accountKeys {event : InvokeEvent}
    (h : invokeStep sha256 bytesAreCurvePoint message tc event = .ok tc') :
    tc'.accountKeys = tc.accountKeys := by
  cases event with
  | processMessageInstruction instruction programIndices =>
      simp only [invokeStep, mapError_eq_ok] at h
      obtain ⟨_, rfl⟩ := processInstruction_eq_ok h
      rfl
  | cpi instruction signersSeeds =>
      obtain ⟨_, _, _, _, _, -, -, -, -, hProcess⟩ := cpiCommon_eq_ok sha256 bytesAreCurvePoint h
      obtain ⟨_, rfl⟩ := processInstruction_eq_ok hProcess
      rfl
  | nativeInvoke instruction signers =>
      simp only [invokeStep, mapError_eq_ok] at h
      obtain ⟨_, _, -, hProcess⟩ := nativeInvoke_eq_ok h
      obtain ⟨_, rfl⟩ := processInstruction_eq_ok hProcess
      rfl
  | pop =>
      simp only [invokeStep, mapError_eq_ok] at h
      rw [TransactionContext.pop_eq_ok h]

/-- Step lemma: every admissible event keeps the invariant. -/
theorem StackBacked.step (h : StackBacked sha256 bytesAreCurvePoint message tc)
    (hKeys : message.accountKeys.iter <+: tc.accountKeys) (hNodup : message.accountKeys.iter.Nodup)
    (hIndices : ∀ instruction ∈ message.instructions,
      ∀ i ∈ instruction.accounts, i.toNat < message.accountKeys.iter.length)
    {event : InvokeEvent} (hAdmissible : event.Admissible sha256 bytesAreCurvePoint message tc)
    (hStep : invokeStep sha256 bytesAreCurvePoint message tc event = .ok tc') :
    StackBacked sha256 bytesAreCurvePoint message tc' := by
  cases event with
  | processMessageInstruction instruction programIndices =>
      simp only [invokeStep, mapError_eq_ok] at hStep
      exact h.processMessageInstruction hKeys hNodup (hIndices instruction hAdmissible) hStep
  | cpi instruction signersSeeds =>
      -- the syscall's signers are derived from the caller's own program
      obtain ⟨caller, programId, signers, _, _, hCaller, hProgram, hSigners, hPrepare, hProcess⟩ :=
        cpiCommon_eq_ok sha256 bytesAreCurvePoint hStep
      refine h.invoke hCaller (fun key hKey => .inl ?_) hPrepare hProcess
      obtain ⟨seeds, hDerive⟩ := hSigners key hKey
      exact ⟨programId, seeds, hProgram, hDerive⟩
  | nativeInvoke instruction signers =>
      simp only [invokeStep, mapError_eq_ok] at hStep
      obtain ⟨_, _, hPrepare, hProcess⟩ := nativeInvoke_eq_ok hStep
      obtain ⟨caller, hCaller, -, -⟩ := prepareInstruction_eq_ok hPrepare
      exact h.invoke hCaller (hAdmissible caller hCaller) hPrepare hProcess
  | pop =>
      simp only [invokeStep, mapError_eq_ok] at hStep
      rw [TransactionContext.pop_eq_ok hStep]
      exact h.pop rfl rfl

theorem Reachable.accountKeys {start : TransactionContext}
    (h : Reachable sha256 bytesAreCurvePoint message start tc) :
    tc.accountKeys = start.accountKeys := by
  induction h with
  | start => rfl
  | step _ _ hStep ih => rw [invokeStep_accountKeys hStep, ih]

/-- Run lemma: induction on the run. -/
theorem Reachable.stackBacked {start : TransactionContext}
    (hStart : StackBacked sha256 bytesAreCurvePoint message start)
    (hKeys : message.accountKeys.iter <+: start.accountKeys) (hNodup : message.accountKeys.iter.Nodup)
    (hIndices : ∀ instruction ∈ message.instructions,
      ∀ i ∈ instruction.accounts, i.toNat < message.accountKeys.iter.length)
    (h : Reachable sha256 bytesAreCurvePoint message start tc) :
    StackBacked sha256 bytesAreCurvePoint message tc := by
  induction h with
  | start => exact hStart
  | step hReach hAdmissible hStep ih =>
      exact ih.step (hReach.accountKeys ▸ hKeys) hNodup hIndices hAdmissible hStep

end Runs

section

variable (sha256 : List UInt8 → Hash) (bytesAreCurvePoint : Hash → Bool)
  (message : SanitizedMessage)

/-- Cross-program invocation never escalates privileges. From a transaction's empty stack, over
every run of admissible events, an account of the frame at depth `d` is writable only if the
message makes it writable, and a signer only if it signs the transaction or is an address
derived from the program of a frame below `d`; and `prepare_instruction` gives the callee one
account per meta, holding the meta's key. -/
theorem invocation_never_escalates_privileges {start tc : TransactionContext}
    (hEmpty : start.instructionStack = [])
    (hKeys : message.accountKeys.iter <+: start.accountKeys)
    (hNodup : message.accountKeys.iter.Nodup)
    (hIndices : ∀ instruction ∈ message.instructions,
      ∀ i ∈ instruction.accounts, i.toNat < message.accountKeys.iter.length)
    (hReach : Reachable sha256 bytesAreCurvePoint message start tc) :
    (∀ (d : Nat) (frame : InstructionContext), tc.instructionStack[d]? = some frame →
      ∀ ia ∈ frame.instructionAccounts, PrivilegesBacked sha256 bytesAreCurvePoint message tc d ia) ∧
    ∀ (instruction : StableInstruction) (signers : List Pubkey)
      (instructionAccounts : List InstructionAccount) (programIndices : List Nat),
      prepareInstruction tc instruction signers = .ok (instructionAccounts, programIndices) →
      List.Forall₂ (fun (m : AccountMeta) ia => tc.accountKeys[ia.indexInTransaction]? = some m.pubkey)
        instruction.accounts instructionAccounts := by
  have hStart : StackBacked sha256 bytesAreCurvePoint message start :=
    ⟨by simp [hEmpty], by simp [hEmpty]⟩
  refine ⟨(hReach.stackBacked hStart hKeys hNodup hIndices).backed, ?_⟩
  intro instruction signers instructionAccounts programIndices hPrepare
  obtain ⟨-, -, hMetas, -⟩ := prepareInstruction_eq_ok hPrepare
  exact hMetas.imp fun _ _ hFind => TransactionContext.findIndexOfAccount_eq_some hFind


/-- A transaction whose one instruction calls its own program: the fee payer, a writable
signer, and the program. -/
def selfCallMessage : SanitizedMessage :=
  .legacy ⟨⟨1, 0, 1⟩, [⟨Vector.replicate 32 1⟩, ⟨Vector.replicate 32 2⟩], Hash.default,
    [⟨1, [0, 1], []⟩]⟩

/-- Its accounts loaded, before the first instruction. -/
def selfCallStart : TransactionContext :=
  ⟨[⟨Vector.replicate 32 1⟩, ⟨Vector.replicate 32 2⟩],
    [⟨10, [], systemProgramId, false, 0⟩, ⟨1, [], bpfLoaderId, true, 0⟩], 5, 64, [], 0, 0, none,
    false⟩

/-- The program calls itself back through the syscall, passing the fee payer on: the run
reaches two frames, both backed. -/
theorem invocation_never_escalates_privileges_self_call :
    ∃ tc, Reachable (fun _ => Hash.default) (fun _ => false) selfCallMessage selfCallStart tc ∧
      tc.instructionStack.length = 2 ∧
      ∀ (d : Nat) (frame : InstructionContext), tc.instructionStack[d]? = some frame →
        ∀ ia ∈ frame.instructionAccounts,
          PrivilegesBacked (fun _ => Hash.default) (fun _ => false) selfCallMessage tc d ia := by
  obtain ⟨tc, hReach, hLength⟩ : ∃ tc,
      Reachable (fun _ => Hash.default) (fun _ => false) selfCallMessage selfCallStart tc ∧
        tc.instructionStack.length = 2 := by
    refine ⟨_, .step (.step .start
      (show InvokeEvent.Admissible _ _ selfCallMessage selfCallStart
        (.processMessageInstruction ⟨1, [0, 1], []⟩ [1]) from List.mem_singleton.mpr rfl) rfl)
      (show InvokeEvent.Admissible _ _ selfCallMessage _
        (.cpi ⟨[⟨⟨Vector.replicate 32 1⟩, true, true⟩], [], ⟨Vector.replicate 32 2⟩⟩ [])
        from trivial) rfl, ?_⟩
    rfl
  exact ⟨tc, hReach, hLength, (invocation_never_escalates_privileges _ _ selfCallMessage rfl
    ⟨[], rfl⟩ (by decide) (by decide +kernel) hReach).1⟩

end

end PutValidator.ProgramRuntime
