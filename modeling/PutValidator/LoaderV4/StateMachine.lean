import PutValidator.LoaderV4.Processor
import PutValidator.Lib.Run

/-! The state machine of a loader-v4 program account. A run is a list of requests, each a frame,
the clock's slot and an instruction, that the loader handles one after another on the accounts of
one transaction context; `AccountStep` says what one instruction may do to one account, and
`StepSpec` collects it for a whole instruction, with the conservation of the frame's lamports.
Every handler's inversion lemma is read into these terms, and the run's guarantees follow by the
invariant rule of `Lib.Run`. -/
namespace PutValidator.LoaderV4

open Lib.Except Lib.Word Lib.List Lib.Run

/-- One instruction of a run: the frame the loader is invoked in, the clock's slot, a `u64`, and
the decoded instruction. -/
structure Request where
  frame : InstructionContext
  clockSlot : Nat
  clockSlot_lt : clockSlot < 2 ^ 64
  instruction : LoaderV4Instruction

/-- The loader on one request, with the request's frame the current one, over the accounts the
instructions before it left. -/
def execute (loads : List UInt8 → Bool) (rent : Rent) (tc : TransactionContext) (r : Request) :
    Except InstructionError TransactionContext :=
  processInstruction loads rent r.clockSlot r.instruction { tc with instructionStack := [r.frame] }

/-! ### What one instruction may do to one account -/

/-- A finalized program: the loader's, with a state whose authority is gone. -/
def Finalized (a : AccountSharedData) : Prop :=
  a.owner = loaderV4Id ∧ ∃ st, getState a.data = .ok st ∧ st.authorityAddress = none

/-- A retracted program whose authority, instruction account 1, signed. -/
def RetractedUnder (ic : InstructionContext) (tc : TransactionContext) (a : AccountSharedData) :
    Prop :=
  ∃ k st, ProgramChecked ic tc a k st ∧ st.isDeployed = false

/-- Instruction account `i` signed, and its key is `k`. -/
def AuthoritySigned (ic : InstructionContext) (tc : TransactionContext) (i : Nat) (k : Pubkey) :
    Prop :=
  instructionAccountKey tc ic i = .ok k ∧ signedAt tc ic i k = true

/-- How the balance of an account whose data stays may move: not at all, down when it is the
signing payer of a `Write`, or up when it receives the lamports of a `Truncate`; both as
instruction account 2. -/
def BalanceMove (ic : InstructionContext) (tc : TransactionContext)
    (instruction : LoaderV4Instruction) (k : Nat) (a a' : AccountSharedData) : Prop :=
  a'.lamports = a.lamports ∨
    (∃ offset bytes, instruction = .write offset bytes) ∧ AccountAt ic tc 2 k a ∧
      signedAt tc ic 2 ((tc.accountKeys[k]?).getD default) = true ∧ a'.lamports ≤ a.lamports ∨
    (∃ offset, instruction = .truncate offset) ∧ AccountAt ic tc 2 k a ∧ a.lamports ≤ a'.lamports

/-- Who may change the bytes after the header: the program of a `Write`, retracted under its
signing authority or empty for the initialising write, which instruction account 1 signs; the
program of a `Truncate`, retracted under its signing authority; the program of a `Deploy` with a
source, which is another account, or that source, each retracted under the signing authority. -/
def BytesChange (ic : InstructionContext) (tc : TransactionContext)
    (instruction : LoaderV4Instruction) (k : Nat) (a : AccountSharedData) : Prop :=
  (∃ offset bytes, instruction = .write offset bytes) ∧ AccountAt ic tc 0 k a ∧
      (RetractedUnder ic tc a ∨ a.data = [] ∧ ∃ key, AuthoritySigned ic tc 1 key) ∨
    (∃ offset, instruction = .truncate offset) ∧ AccountAt ic tc 0 k a ∧ RetractedUnder ic tc a ∨
    instruction = .deploy ∧
      (AccountAt ic tc 0 k a ∧ (∃ q b, q ≠ k ∧ AccountAt ic tc 2 q b) ∨ AccountAt ic tc 2 k a) ∧
      RetractedUnder ic tc a

/-- Who may flip `is_deployed` of the program with state `st`: `Deploy` from retracted, or
`Retract` from deployed, once the cooldown since the stored slot has passed, with the state's
authority signing. -/
def DeployedChange (ic : InstructionContext) (tc : TransactionContext) (clockSlot : Nat)
    (instruction : LoaderV4Instruction) (k : Nat) (a : AccountSharedData) (st : LoaderV4State) :
    Prop :=
  AccountAt ic tc 0 k a ∧
    (instruction = .deploy ∧ st.isDeployed = false ∨ instruction = .retract ∧ st.isDeployed = true) ∧
    saturatingAdd 64 st.slot deploymentCooldownInSlots ≤ clockSlot ∧
    ∃ key, st.authorityAddress = some key ∧ AuthoritySigned ic tc 1 key

/-- Who may become an authority: the signer of instruction account 1 by the initialising `Write`,
or the signer of instruction account 2 by `TransferAuthority`. -/
def NewAuthoritySigned (ic : InstructionContext) (tc : TransactionContext)
    (instruction : LoaderV4Instruction) (key : Pubkey) : Prop :=
  (∃ offset bytes, instruction = .write offset bytes) ∧ AuthoritySigned ic tc 1 key ∨
    instruction = .transferAuthority ∧ AuthoritySigned ic tc 2 key

/-- The rent facts of the program, from `a` to `a'`: after a `Write` it holds the rent of the
length written up to; after a `Truncate` to a non-zero size, the smaller of its balance and the
rent of its new length; after a `Deploy`, its balance, or with a source that balance plus what it
held beyond the rent of its data before the copy. -/
def ProgramRent (rent : Rent) (instruction : LoaderV4Instruction) (a a' : AccountSharedData) :
    Prop :=
  (∀ offset bytes, instruction = .write offset bytes →
    rent.minimumBalance (saturatingAdd 64 programDataOffset
      (saturatingAdd 64 offset.toNat bytes.length)) ≤ a'.lamports) ∧
  (∀ offset, instruction = .truncate offset → offset ≠ 0 →
    a'.data.length = truncatedLength offset ∧
      a'.lamports = min a.lamports (rent.minimumBalance a'.data.length)) ∧
  (instruction = .deploy → a'.lamports = a.lamports ∨
    a'.lamports = a.lamports + (a.lamports - rent.minimumBalance a.data.length))

/-- What one successful instruction may do to the account `k`, from `a` to `a'`. -/
structure AccountStep (rent : Rent) (ic : InstructionContext) (clockSlot : Nat)
    (instruction : LoaderV4Instruction) (tc : TransactionContext) (k : Nat)
    (a a' : AccountSharedData) : Prop where
  owner : a'.owner = a.owner
  finalized : Finalized a → a'.data = a.data ∧ BalanceMove ic tc instruction k a a'
  bytes : a'.data.drop programDataOffset ≠ a.data.drop programDataOffset →
    BytesChange ic tc instruction k a
  deployed : ∀ st st', getState a.data = .ok st → getState a'.data = .ok st' →
    st'.isDeployed ≠ st.isDeployed → DeployedChange ic tc clockSlot instruction k a st
  authority : ∀ st' key, getState a'.data = .ok st' → st'.authorityAddress = some key →
    (∀ st, getState a.data = .ok st → st.authorityAddress ≠ some key) →
    NewAuthoritySigned ic tc instruction key
  rent : AccountAt ic tc 0 k a → ProgramRent rent instruction a a'

/-- What one successful instruction did: the frame's lamports are conserved, no account appears
or disappears, and every account changed only as `AccountStep` allows. -/
structure StepSpec (rent : Rent) (ic : InstructionContext) (clockSlot : Nat)
    (instruction : LoaderV4Instruction) (tc tc' : TransactionContext) : Prop where
  lamportSum : ic.lamportSum tc'.accounts = ic.lamportSum tc.accounts
  length : tc'.accounts.length = tc.accounts.length
  account : ∀ k a a', tc.accounts[k]? = some a → tc'.accounts[k]? = some a' →
    AccountStep rent ic clockSlot instruction tc k a a'

/-! ### The accounts after a rewrite -/

section Rewrites

variable {ic : InstructionContext} {tc tc' : TransactionContext} {i p k : Nat}
  {a a' x : AccountSharedData} {other : Option (Nat × AccountSharedData × AccountSharedData)}

theorem AccountAt.getElem? (h : AccountAt ic tc i p a) : tc.accounts[p]? = some a := by
  obtain ⟨-, -, -, ha⟩ := h
  exact ha

theorem AccountAt.mem_indicesInTransaction (h : AccountAt ic tc i p a) :
    p ∈ ic.indicesInTransaction := by
  obtain ⟨ia, hia, rfl, -⟩ := h
  exact mem_indicesInTransaction hia

theorem Rewrite.not_program (h : Rewrite ic tc tc' p a a' other) (hkp : k ≠ p) :
    ¬AccountAt ic tc 0 k x :=
  fun hAt => hkp (hAt.unique h.program).1

theorem Rewrite.length_eq (h : Rewrite ic tc tc' p a a' other) :
    tc'.accounts.length = tc.accounts.length := by
  rw [h.accounts.accounts_eq]
  rcases other with _ | ⟨q, b, b'⟩ <;> simp [setOther]

/-- Each account after a rewrite holds the program's new value, the other account's, or what it
held. -/
theorem Rewrite.getElem?_cases (h : Rewrite ic tc tc' p a a' other)
    (hk : tc.accounts[k]? = some x) :
    (k = p ∧ x = a ∧ tc'.accounts[k]? = some a') ∨
      (∃ b', other = some (k, x, b') ∧ k ≠ p ∧ AccountAt ic tc 2 k x ∧
        tc'.accounts[k]? = some b') ∨
      (k ≠ p ∧ tc'.accounts[k]? = some x) := by
  have hLt := h.program.lt_length
  have hpa := h.program.getElem?
  rw [h.accounts.accounts_eq]
  rcases other with _ | ⟨q, b, b'⟩
  · by_cases hkp : k = p
    · subst hkp
      exact .inl ⟨rfl, Option.some.inj (hk.symm.trans hpa), List.getElem?_set_self hLt⟩
    · exact .inr (.inr ⟨hkp, by rw [setOther, List.getElem?_set_ne (Ne.symm hkp), hk]⟩)
  · obtain ⟨hAtQ, hqp⟩ := h.other_at q b b' rfl
    by_cases hkq : k = q
    · subst hkq
      obtain rfl : x = b := Option.some.inj (hk.symm.trans hAtQ.getElem?)
      exact .inr (.inl ⟨b', rfl, hqp, hAtQ,
        List.getElem?_set_self (by simpa using hAtQ.lt_length)⟩)
    · by_cases hkp : k = p
      · subst hkp
        exact .inl ⟨rfl, Option.some.inj (hk.symm.trans hpa), by
          rw [setOther, List.getElem?_set_ne (Ne.symm hkq), List.getElem?_set_self hLt]⟩
      · exact .inr (.inr ⟨hkp, by
          rw [setOther, List.getElem?_set_ne (Ne.symm hkq), List.getElem?_set_ne (Ne.symm hkp), hk]⟩)

/-- The frame's lamports after a rewrite of the program alone. -/
theorem Rewrite.lamportSum_none (h : Rewrite ic tc tc' p a a' none) :
    ic.lamportSum tc'.accounts + a.lamports = ic.lamportSum tc.accounts + a'.lamports := by
  rw [h.accounts.accounts_eq, setOther, ← lamportsAt_of_getElem? h.program.getElem?]
  exact lamportSum_set h.program.mem_indicesInTransaction h.program.lt_length

/-- The frame's lamports after a rewrite of the program and of instruction account 2. -/
theorem Rewrite.lamportSum_some {q : Nat} {b b' : AccountSharedData}
    (h : Rewrite ic tc tc' p a a' (some (q, b, b'))) :
    ic.lamportSum tc'.accounts + a.lamports + b.lamports =
      ic.lamportSum tc.accounts + a'.lamports + b'.lamports := by
  obtain ⟨hAtQ, hqp⟩ := h.other_at q b b' rfl
  have hp := lamportSum_set (a := a') h.program.mem_indicesInTransaction h.program.lt_length
  have hq : ic.lamportSum ((tc.accounts.set p a').set q b') + lamportsAt (tc.accounts.set p a') q =
      ic.lamportSum (tc.accounts.set p a') + b'.lamports :=
    lamportSum_set hAtQ.mem_indicesInTransaction (by simpa using hAtQ.lt_length)
  rw [lamportsAt_of_getElem? h.program.getElem?] at hp
  rw [lamportsAt_set_ne hqp, lamportsAt_of_getElem? hAtQ.getElem?] at hq
  rw [h.accounts.accounts_eq, setOther]
  omega

end Rewrites

/-! ### Steps of one account -/

section Steps

variable {rent : Rent} {ic : InstructionContext} {clockSlot : Nat}
  {instruction : LoaderV4Instruction} {tc tc' : TransactionContext} {k p : Nat}
  {a a' b : AccountSharedData} {l : Nat} {st : LoaderV4State} {key : Pubkey}
  {other : Option (Nat × AccountSharedData × AccountSharedData)}

/-- A checked program is not finalized: its state names an authority. -/
theorem ProgramChecked.not_finalized (h : ProgramChecked ic tc a key st) : ¬Finalized a := by
  rintro ⟨-, st', hState, hNone⟩
  obtain rfl : st' = st := Except.ok.inj (hState.symm.trans h.state)
  rw [h.authority] at hNone
  cases hNone

theorem ProgramChecked.retractedUnder (h : ProgramChecked ic tc a key st)
    (hRetracted : st.isDeployed = false) : RetractedUnder ic tc a :=
  ⟨key, st, h, hRetracted⟩

theorem ProgramChecked.authoritySigned (h : ProgramChecked ic tc a key st) :
    AuthoritySigned ic tc 1 key :=
  ⟨h.key, h.signed⟩

/-- An empty account holds no state, so no step reads one from it. -/
theorem not_finalized_of_nil (h : a.data = []) : ¬Finalized a := by
  rintro ⟨-, st, hState, -⟩
  rw [h] at hState
  exact getState_of_lt (by decide) hState

/-- An account whose data and owner stay: only its balance may have moved. -/
theorem AccountStep.of_data_eq (hData : a'.data = a.data) (hOwner : a'.owner = a.owner)
    (hBalance : Finalized a → BalanceMove ic tc instruction k a a')
    (hRent : AccountAt ic tc 0 k a → ProgramRent rent instruction a a') :
    AccountStep rent ic clockSlot instruction tc k a a' := by
  refine ⟨hOwner, fun hFinalized => ⟨hData, hBalance hFinalized⟩, fun hBytes => ?_,
    fun st st' hState hState' hne => ?_, fun st' key hState' hKey hOld => ?_, hRent⟩
  · exact absurd (by rw [hData]) hBytes
  · rw [hData] at hState'
    obtain rfl : st' = st := Except.ok.inj (hState'.symm.trans hState)
    exact absurd rfl hne
  · rw [hData] at hState'
    exact absurd hKey (hOld st' hState')

/-- An account no instruction account 0 points at, left as it was. -/
theorem AccountStep.refl (hNotProgram : ¬AccountAt ic tc 0 k a) :
    AccountStep rent ic clockSlot instruction tc k a a :=
  .of_data_eq rfl rfl (fun _ => .inl rfl) (fun hAt => absurd hAt hNotProgram)

/-- An account beside the program whose balance alone moved. -/
theorem AccountStep.of_lamports (h : Rewrite ic tc tc' p a a' other)
    (hOther : other = some (k, b, { b with lamports := l }))
    (hBalance : BalanceMove ic tc instruction k b { b with lamports := l }) :
    AccountStep rent ic clockSlot instruction tc k b { b with lamports := l } :=
  .of_data_eq rfl rfl (fun _ => hBalance)
    (fun hAt => absurd hAt (h.not_program (h.other_at _ _ _ hOther).2))

/-- A rewrite is a step as soon as the program's change and the other account's are. -/
theorem Rewrite.stepSpec (h : Rewrite ic tc tc' p a a' other)
    (hSum : ic.lamportSum tc'.accounts = ic.lamportSum tc.accounts)
    (hProgram : AccountStep rent ic clockSlot instruction tc p a a')
    (hOther : ∀ q b b', other = some (q, b, b') →
      AccountStep rent ic clockSlot instruction tc q b b') :
    StepSpec rent ic clockSlot instruction tc tc' := by
  refine ⟨hSum, h.length_eq, fun j x x' hx hx' => ?_⟩
  rcases h.getElem?_cases hx with ⟨rfl, rfl, hp⟩ | ⟨b', hq, -, -, hq'⟩ | ⟨hjp, hj⟩
  · obtain rfl : x' = a' := Option.some.inj (hx'.symm.trans hp)
    exact hProgram
  · obtain rfl : x' = b' := Option.some.inj (hx'.symm.trans hq')
    exact hOther j x x' hq
  · obtain rfl : x' = x := Option.some.inj (hx'.symm.trans hj)
    exact .refl (h.not_program hjp)

end Steps

/-! ### Each handler is a step -/

section Handlers

variable {rent : Rent} {ic : InstructionContext} {clockSlot : Nat} {tc tc' : TransactionContext}

/-- The program of a `Write`, which gains `t` and holds `data` after. -/
theorem AccountStep.write {offset : UInt32} {bytes : List UInt8} {p t : Nat} {k : Pubkey}
    {a : AccountSharedData} {data : List UInt8} (hAt : AccountAt ic tc 0 p a)
    (hKey : instructionAccountKey tc ic 1 = .ok k) (hSigned : signedAt tc ic 1 k = true)
    (hOwner : a.owner = loaderV4Id)
    (hRent : rent.minimumBalance (saturatingAdd 64 programDataOffset
      (saturatingAdd 64 offset.toNat bytes.length)) ≤ a.lamports + t)
    (hState : (offset = 0 ∧ a.data = [] ∧ getState data = .ok ⟨clockSlot, false, some k⟩) ∨
      ∃ st, getState a.data = .ok st ∧ st.authorityAddress = some k ∧ st.isDeployed = false ∧
        getState data = .ok st) :
    AccountStep rent ic clockSlot (.write offset bytes) tc p a
      { a with lamports := a.lamports + t, data } := by
  have hProgramRent : ProgramRent rent (.write offset bytes) a
      { a with lamports := a.lamports + t, data } :=
    ⟨fun _ _ hEq => by cases hEq; exact hRent, (fun _ hEq => by cases hEq),
      (fun hEq => by cases hEq)⟩
  rcases hState with ⟨-, hEmpty, hNew⟩ | ⟨st, hState, hAuthority, hRetracted, hSame⟩
  · -- the initialising write: the signer of instruction account 1 becomes the authority
    refine ⟨rfl, fun hFinalized => absurd hFinalized (not_finalized_of_nil hEmpty),
      fun _ => .inl ⟨⟨offset, bytes, rfl⟩, hAt, .inr ⟨hEmpty, k, hKey, hSigned⟩⟩,
      fun st _ hState => ?_, fun st' key hState' hKey' _ => ?_, fun _ => hProgramRent⟩
    · rw [hEmpty] at hState
      exact absurd hState (getState_of_lt (by decide))
    · obtain rfl : st' = ⟨clockSlot, false, some k⟩ := Except.ok.inj (hState'.symm.trans hNew)
      cases hKey'
      exact .inl ⟨⟨offset, bytes, rfl⟩, hKey, hSigned⟩
  · -- a write into a retracted program keeps its state
    have hChecked : ProgramChecked ic tc a k st := ⟨hKey, hSigned, hOwner, hState, hAuthority⟩
    refine ⟨rfl, fun hFinalized => absurd hFinalized hChecked.not_finalized,
      fun _ => .inl ⟨⟨offset, bytes, rfl⟩, hAt, .inl (hChecked.retractedUnder hRetracted)⟩,
      fun st₁ st' hState₁ hState' hne => ?_, fun st' key hState' hKey' hOld => ?_,
      fun _ => hProgramRent⟩
    · obtain rfl : st₁ = st := Except.ok.inj (hState₁.symm.trans hState)
      obtain rfl : st' = st₁ := Except.ok.inj (hState'.symm.trans hSame)
      exact absurd rfl hne
    · obtain rfl : st' = st := Except.ok.inj (hState'.symm.trans hSame)
      exact absurd hKey' (hOld st' hState)

theorem processInstructionWrite_stepSpec {offset : UInt32} {bytes : List UInt8}
    (hClock : clockSlot < 2 ^ 64) (hIc : tc.getCurrentInstructionContext = .ok ic)
    (h : processInstructionWrite rent clockSlot offset bytes tc = .ok tc') :
    StepSpec rent ic clockSlot (.write offset bytes) tc tc' := by
  obtain ⟨ic', p, a, k, t, data, other, hIc', hRewrite, hKey, hSigned, hOwner, hRent, hState,
    hPaid⟩ := processInstructionWrite_eq_ok hClock h
  obtain rfl : ic' = ic := Except.ok.inj (hIc'.symm.trans hIc)
  have hProgram := AccountStep.write hRewrite.program hKey hSigned hOwner hRent hState
  rcases hPaid with ⟨rfl, rfl⟩ | ⟨q, b, rfl, hSignedPayer, hEnough⟩
  · -- no payer, nothing to move
    have hSum := hRewrite.lamportSum_none
    exact hRewrite.stepSpec (by simp only at hSum; omega) hProgram (fun _ _ _ h => by cases h)
  · -- the payer's debit is the program's credit
    have hSum := hRewrite.lamportSum_some
    have hAtPayer := (hRewrite.other_at _ _ _ rfl).1
    refine hRewrite.stepSpec (by simp only at hSum; omega) hProgram ?_
    rintro q' b' b'' hq
    cases hq
    exact .of_lamports hRewrite rfl
      (.inr (.inl ⟨⟨offset, bytes, rfl⟩, hAtPayer, hSignedPayer, Nat.sub_le _ _⟩))

theorem processInstructionTruncate_stepSpec {offset : UInt32}
    (hIc : tc.getCurrentInstructionContext = .ok ic)
    (h : processInstructionTruncate rent offset tc = .ok tc') :
    StepSpec rent ic clockSlot (.truncate offset) tc tc' := by
  obtain ⟨ic', p, a, k, st, q, b, t, hIc', hChecked, hRetracted, -, ht, hRewrite⟩ :=
    processInstructionTruncate_eq_ok h
  obtain rfl : ic' = ic := Except.ok.inj (hIc'.symm.trans hIc)
  have hAtRecipient := (hRewrite.other_at _ _ _ rfl).1
  have hSum := hRewrite.lamportSum_some
  have hPaid : t ≤ a.lamports := ht ▸ Nat.sub_le _ _
  refine hRewrite.stepSpec (by simp only at hSum; omega) ?_ ?_
  · -- the program is cut, and keeps the state the cut leaves
    refine ⟨rfl, fun hFinalized => absurd hFinalized hChecked.not_finalized,
      fun _ => .inr (.inl ⟨⟨offset, rfl⟩, hRewrite.program, hChecked.retractedUnder hRetracted⟩),
      fun st₁ st' hState₁ hState' hne => ?_, fun st' key hState' hKey hOld => ?_,
      fun _ => ⟨(fun _ _ hEq => by cases hEq), fun o hEq hNonzero => ?_,
        (fun hEq => by cases hEq)⟩⟩
    · obtain rfl : st₁ = st := Except.ok.inj (hState₁.symm.trans hChecked.state)
      obtain rfl : st' = st₁ := getState_resized_eq hChecked.state hState'
      exact absurd rfl hne
    · obtain rfl : st' = st := getState_resized_eq hChecked.state hState'
      exact absurd hKey (hOld st' hChecked.state)
    · cases hEq
      refine ⟨length_resized _ _, ?_⟩
      simp only [length_resized, ht, if_neg hNonzero]
      omega
  · rintro q' b' b'' hq
    cases hq
    exact .of_lamports hRewrite rfl (.inr (.inr ⟨⟨offset, rfl⟩, hAtRecipient, Nat.le_add_right _ _⟩))

/-- The rent facts hold vacuously for an instruction that is neither a `Write`, a `Truncate` nor
a `Deploy`. -/
theorem programRent_of_header {instruction : LoaderV4Instruction} {a a' : AccountSharedData}
    (hRetract : instruction = .retract ∨ instruction = .transferAuthority) :
    ProgramRent rent instruction a a' := by
  refine ⟨fun _ _ hEq => ?_, fun _ hEq => ?_, fun hEq => ?_⟩ <;>
    rcases hRetract with rfl | rfl <;> cases hEq

/-- The program of a `Deploy`, a retracted one of the signing authority whose cooldown passed,
is marked deployed, from its own data or from a source's, `source`. -/
theorem AccountStep.deploy {p : Nat} {k : Pubkey} {a : AccountSharedData} {st stSource : LoaderV4State}
    {source : List UInt8} {l : Nat} (hClock : clockSlot < 2 ^ 64) (hAt : AccountAt ic tc 0 p a)
    (hChecked : ProgramChecked ic tc a k st) (hRetracted : st.isDeployed = false)
    (hCooldown : saturatingAdd 64 st.slot deploymentCooldownInSlots ≤ clockSlot)
    (hSource : getState source = .ok stSource) (hAuthority : stSource.authorityAddress = some k)
    (hBytes : source.drop programDataOffset ≠ a.data.drop programDataOffset →
      BytesChange ic tc .deploy p a)
    (hRent : ProgramRent rent .deploy a
      { a with lamports := l, data := writeIsDeployed true (writeSlot clockSlot source) }) :
    AccountStep rent ic clockSlot .deploy tc p a
      { a with lamports := l, data := writeIsDeployed true (writeSlot clockSlot source) } := by
  have hNew := getState_writeIsDeployed (getState_writeSlot hSource hClock) true
  have hLength := (getState_eq_ok hSource).1
  refine ⟨rfl, fun hFinalized => absurd hFinalized hChecked.not_finalized, fun hChanged => ?_,
    fun st₁ _ hState₁ _ _ => ?_, fun st' key hState' hKey hOld => ?_, fun _ => hRent⟩
  · refine hBytes fun hSame => hChanged ?_
    simp only
    rw [drop_writeIsDeployed (by rw [length_writeSlot hLength]; exact hLength), drop_writeSlot,
      hSame]
  · obtain rfl : st₁ = st := Except.ok.inj (hState₁.symm.trans hChecked.state)
    exact ⟨hAt, .inl ⟨rfl, hRetracted⟩, hCooldown, k, hChecked.authority,
      hChecked.authoritySigned⟩
  · -- the deployed state keeps the authority, which is the program's
    obtain rfl := Except.ok.inj (hState'.symm.trans hNew)
    have hSame : st.authorityAddress = some key := hChecked.authority.trans (hAuthority.symm.trans hKey)
    exact absurd hSame (hOld st hChecked.state)

theorem processInstructionDeploy_stepSpec {loads : List UInt8 → Bool}
    (hClock : clockSlot < 2 ^ 64) (hIc : tc.getCurrentInstructionContext = .ok ic)
    (h : processInstructionDeploy loads rent clockSlot tc = .ok tc') :
    StepSpec rent ic clockSlot .deploy tc tc' := by
  obtain ⟨ic', p, a, k, st, hIc', hChecked, hRetracted, hCooldown, hRewrite | hSourced⟩ :=
    processInstructionDeploy_eq_ok h
  all_goals obtain rfl : ic' = ic := Except.ok.inj (hIc'.symm.trans hIc)
  · -- without a source only the program's header changes
    have hSum := hRewrite.lamportSum_none
    refine hRewrite.stepSpec (by simp only at hSum; omega) ?_ (fun _ _ _ h => by cases h)
    exact AccountStep.deploy (l := a.lamports) hClock hRewrite.program hChecked hRetracted hCooldown
      hChecked.state hChecked.authority (fun hne => absurd rfl hne)
      ⟨(fun _ _ hEq => by cases hEq), (fun _ hEq => by cases hEq), fun _ => .inl rfl⟩
  · -- with a source the program takes its data and lamports, and the source is emptied
    obtain ⟨q, b, stSource, t, hSource, hSourceRetracted, ht, hEnough, hRewrite⟩ := hSourced
    obtain ⟨hAtSource, hne⟩ := hRewrite.other_at _ _ _ rfl
    have hSum := hRewrite.lamportSum_some
    refine hRewrite.stepSpec (by simp only at hSum; omega) ?_ ?_
    · exact AccountStep.deploy hClock hRewrite.program hChecked hRetracted hCooldown
        hSource.state hSource.authority
        (fun _ => .inr (.inr ⟨rfl, .inl ⟨hRewrite.program, q, b, hne, hAtSource⟩,
          hChecked.retractedUnder hRetracted⟩))
        ⟨(fun _ _ hEq => by cases hEq), (fun _ hEq => by cases hEq), fun _ => .inr (by rw [ht])⟩
    · rintro q' b' b'' hq
      cases hq
      have hNoState : ∀ st', getState ([] : List UInt8) ≠ .ok st' :=
        fun _ => getState_of_lt (by decide)
      exact ⟨rfl, fun hFinalized => absurd hFinalized hSource.not_finalized,
        fun _ => .inr (.inr ⟨rfl, .inr hAtSource, hSource.retractedUnder hSourceRetracted⟩),
        fun _ st' _ hState' => absurd hState' (hNoState st'),
        fun st' _ hState' => absurd hState' (hNoState st'),
        fun hAt => absurd hAt (hRewrite.not_program hne)⟩

theorem processInstructionRetract_stepSpec (hIc : tc.getCurrentInstructionContext = .ok ic)
    (h : processInstructionRetract clockSlot tc = .ok tc') :
    StepSpec rent ic clockSlot .retract tc tc' := by
  obtain ⟨ic', p, a, k, st, hIc', hChecked, hDeployed, hCooldown, hRewrite⟩ :=
    processInstructionRetract_eq_ok h
  obtain rfl : ic' = ic := Except.ok.inj (hIc'.symm.trans hIc)
  have hSum := hRewrite.lamportSum_none
  have hLength := (getState_eq_ok hChecked.state).1
  refine hRewrite.stepSpec (by simp only at hSum; omega) ?_ (fun _ _ _ h => by cases h)
  refine ⟨rfl, fun hFinalized => absurd hFinalized hChecked.not_finalized, fun hBytes => ?_,
    fun st₁ _ hState₁ _ _ => ?_, fun st' key hState' hKey hOld => ?_,
    fun _ => programRent_of_header (.inl rfl)⟩
  · exact absurd (drop_writeIsDeployed hLength false) hBytes
  · obtain rfl : st₁ = st := Except.ok.inj (hState₁.symm.trans hChecked.state)
    exact ⟨hRewrite.program, .inr ⟨rfl, hDeployed⟩, hCooldown, k, hChecked.authority,
      hChecked.authoritySigned⟩
  · obtain rfl := Except.ok.inj (hState'.symm.trans (getState_writeIsDeployed hChecked.state false))
    exact absurd hKey (hOld st hChecked.state)

theorem processInstructionTransferAuthority_stepSpec
    (hIc : tc.getCurrentInstructionContext = .ok ic)
    (h : processInstructionTransferAuthority tc = .ok tc') :
    StepSpec rent ic clockSlot .transferAuthority tc tc' := by
  obtain ⟨ic', p, a, k, st, newAuthority, hIc', hChecked, hNew, hRewrite⟩ :=
    processInstructionTransferAuthority_eq_ok h
  obtain rfl : ic' = ic := Except.ok.inj (hIc'.symm.trans hIc)
  have hSum := hRewrite.lamportSum_none
  have hLength := (getState_eq_ok hChecked.state).1
  have hState' := getState_writeAuthorityAddress hChecked.state newAuthority
  refine hRewrite.stepSpec (by simp only at hSum; omega) ?_ (fun _ _ _ h => by cases h)
  refine ⟨rfl, fun hFinalized => absurd hFinalized hChecked.not_finalized, fun hBytes => ?_,
    fun st₁ st₂ hState₁ hState₂ hne => ?_, fun st₂ key hState₂ hKey _ => ?_,
    fun _ => programRent_of_header (.inr rfl)⟩
  · exact absurd (drop_writeAuthorityAddress hLength newAuthority) hBytes
  · obtain rfl : st₁ = st := Except.ok.inj (hState₁.symm.trans hChecked.state)
    obtain rfl := Except.ok.inj (hState₂.symm.trans hState')
    exact absurd rfl hne
  · -- the new authority is the key of instruction account 2, which signed
    obtain rfl := Except.ok.inj (hState₂.symm.trans hState')
    exact .inr ⟨rfl, hNew key hKey⟩

end Handlers

/-! ### Runs -/

section Runs

variable {loads : List UInt8 → Bool} {rent : Rent} {tc tc' : TransactionContext}

/-- Every request the loader handles is a step of the state machine. -/
theorem execute_stepSpec {r : Request} (h : execute loads rent tc r = .ok tc') :
    StepSpec rent r.frame r.clockSlot r.instruction { tc with instructionStack := [r.frame] } tc' := by
  obtain ⟨frame, clockSlot, hClock, instruction⟩ := r
  cases instruction with
  | write offset bytes => exact processInstructionWrite_stepSpec hClock rfl h
  | truncate offset => exact processInstructionTruncate_stepSpec rfl h
  | deploy => exact processInstructionDeploy_stepSpec hClock rfl h
  | retract => exact processInstructionRetract_stepSpec rfl h
  | transferAuthority => exact processInstructionTransferAuthority_stepSpec rfl h

/-- One step keeps a finalized program's data and owner, so it stays finalized. -/
theorem StepSpec.keeps_finalized {ic : InstructionContext} {clockSlot : Nat}
    {instruction : LoaderV4Instruction} {k : Nat} {a : AccountSharedData}
    (h : StepSpec rent ic clockSlot instruction tc tc') (hk : tc.accounts[k]? = some a)
    (hFinalized : Finalized a) :
    ∃ a' : AccountSharedData, tc'.accounts[k]? = some a' ∧ a'.data = a.data ∧ a'.owner = a.owner := by
  have hLt : k < tc'.accounts.length := by
    rw [h.length]
    exact (List.getElem?_eq_some_iff.mp hk).1
  obtain ⟨a', ha'⟩ : ∃ a', tc'.accounts[k]? = some a' := ⟨_, List.getElem?_eq_getElem hLt⟩
  have hStep := h.account k a a' hk ha'
  exact ⟨a', ha', (hStep.finalized hFinalized).1, hStep.owner⟩

/-- The header of a retracted program of `authority` that was deployed at slot 0. -/
def retractedHeader (authority : Pubkey) : List UInt8 :=
  List.replicate 9 0 ++ 1 :: authority.bytes.toList ++ List.replicate 6 0

/-- A retracted program, at index 0, under the authority at index 1, with the loader at
index 2. -/
def finalizeContext : TransactionContext :=
  ⟨[uniformKey 7, uniformKey 1, loaderV4Id],
    [⟨10, retractedHeader (uniformKey 1), loaderV4Id, false, 0⟩, ⟨5, [], systemProgramId, false, 0⟩,
      ⟨1, [], nativeLoaderId, true, 0⟩], 64, 64, [], 0, 0, some ⟨3480, .finite 2 0, 50⟩, false⟩

/-- `TransferAuthority` without a new authority: the program is finalized. -/
def finalizeRequest : Request :=
  ⟨⟨0, 0, [2], [⟨0, 0, 0, false, true⟩, ⟨1, 1, 1, true, false⟩], []⟩, 800, by decide,
    .transferAuthority⟩

/-- The accounts after the program is finalized. -/
def finalizeAfter : TransactionContext :=
  (runAll (execute (fun _ => true) ⟨3480, .finite 2 0, 50⟩) finalizeContext [finalizeRequest]).toOption.getD
    finalizeContext

/-- A finalized program with 3 lamports at index 2, beside a retracted program at index 0 under
the authority at index 1, with the loader at index 3. -/
def truncateContext : TransactionContext :=
  ⟨[uniformKey 7, uniformKey 1, uniformKey 9, loaderV4Id],
    [⟨10, retractedHeader (uniformKey 1), loaderV4Id, false, 0⟩, ⟨5, [], systemProgramId, false, 0⟩,
      ⟨3, List.replicate 48 0, loaderV4Id, false, 0⟩, ⟨1, [], nativeLoaderId, true, 0⟩],
    64, 64, [], 0, 0, some ⟨3480, .finite 2 0, 50⟩, false⟩

/-- `Truncate` of the retracted program to nothing, with the finalized one as recipient. -/
def truncateRequest : Request :=
  ⟨⟨0, 0, [3], [⟨0, 0, 0, false, true⟩, ⟨1, 1, 1, true, false⟩, ⟨2, 2, 2, false, true⟩], []⟩,
    800, by decide, .truncate 0⟩

/-- An underfunded program of 148 bytes at index 0, under the authority at index 1, beside a
longer retracted program at index 2, with the loader at index 3. -/
def rentContext : TransactionContext :=
  ⟨[uniformKey 7, uniformKey 1, uniformKey 8, loaderV4Id],
    [⟨1300000, retractedHeader (uniformKey 1) ++ List.replicate 100 0, loaderV4Id, false, 0⟩,
      ⟨5, [], systemProgramId, false, 0⟩,
      ⟨1000000, retractedHeader (uniformKey 1) ++ List.replicate 200 0, loaderV4Id, false, 0⟩,
      ⟨1, [], nativeLoaderId, true, 0⟩],
    64, 64, [], 0, 0, some ⟨3480, .finite 2 0, 50⟩, false⟩

/-- A `Truncate` of the program to its own size, a `Write` of one byte into it, and a `Deploy`
into it from the program at index 2. -/
def rentRequests : List Request :=
  [⟨⟨0, 0, [3], [⟨0, 0, 0, false, true⟩, ⟨1, 1, 1, true, false⟩, ⟨2, 2, 2, false, true⟩], []⟩,
      800, by decide, .truncate 100⟩,
    ⟨⟨0, 0, [3], [⟨0, 0, 0, false, true⟩, ⟨1, 1, 1, true, false⟩], []⟩, 800, by decide,
      .write 0 [1]⟩,
    ⟨⟨0, 0, [3], [⟨0, 0, 0, false, true⟩, ⟨1, 1, 1, true, false⟩, ⟨2, 2, 2, false, true⟩], []⟩,
      800, by decide, .deploy⟩]

end Runs

end PutValidator.LoaderV4
