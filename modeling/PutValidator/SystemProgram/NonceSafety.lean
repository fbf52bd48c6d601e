import PutValidator.SystemProgram.Handlers
import PutValidator.Lib.Run

/-! Durable nonces cannot be replayed. A run applies nonce instructions and transfers to one
nonce account, instruction `j` under the bank's blockhash `B j`. What one instruction can do to
the account is said once, by `NonceEffect` (its first borrow) and `Credited` (its second); the
invariants of the run are proved from these two and never from the handlers' bodies. -/
namespace PutValidator

open Lib.Except

/-- The instructions of a nonce run: the five nonce instructions and `Transfer`. -/
def SystemInstruction.isNonceOrTransfer : SystemInstruction → Bool
  | .advanceNonceAccount | .withdrawNonceAccount _ | .initializeNonceAccount _
  | .authorizeNonceAccount _ | .upgradeNonceAccount | .transfer _ => true
  | _ => false

section Effect

variable (sha256 : List UInt8 → Hash) (invokeContext : SystemInvokeContext) (rent : Rent)
  (signers : List Pubkey) (key : Pubkey)

/-- What the first borrow of a nonce instruction or a transfer does to the nonce account with
key `key`: nothing, or the instruction's own handler when the account is its first account. -/
inductive NonceEffect : SystemInstruction → AccountSharedData → AccountSharedData → Prop
  | stay (instruction : SystemInstruction) (a : AccountSharedData) : NonceEffect instruction a a
  | transferFrom {lamports : Nat} {a : AccountSharedData} (hData : a.data = [])
      (hCovered : lamports ≤ a.lamports) :
      NonceEffect (.transfer lamports) a { a with lamports := a.lamports - lamports }
  | advance {versions : Nonce.Versions} {data : Nonce.Data} {a a' : AccountSharedData}
      (hVersions : nonceVersionsOf a = some versions) (hState : versions.state = .initialized data)
      (hSigned : data.authority ∈ signers)
      (hFresh : data.durableNonce ≠ DurableNonce.fromBlockhash sha256 invokeContext.blockhash)
      (hWrite : WritesNonce (.new (.initialized ⟨data.authority,
        DurableNonce.fromBlockhash sha256 invokeContext.blockhash,
        invokeContext.lamportsPerSignature⟩)) a a') :
      NonceEffect .advanceNonceAccount a a'
  | initializeNonce {authority : Pubkey} {versions : Nonce.Versions} {a a' : AccountSharedData}
      (hVersions : nonceVersionsOf a = some versions) (hState : versions.state = .uninitialized)
      (hFunded : rent.minimumBalance a.data.length ≤ a.lamports)
      (hWrite : WritesNonce (.new (.initialized ⟨authority,
        DurableNonce.fromBlockhash sha256 invokeContext.blockhash,
        invokeContext.lamportsPerSignature⟩)) a a') :
      NonceEffect (.initializeNonceAccount authority) a a'
  | authorize {authority : Pubkey} {versions authorized : Nonce.Versions} {a a' : AccountSharedData}
      (hVersions : nonceVersionsOf a = some versions)
      (hAuthorized : versions.authorize signers authority = .ok authorized)
      (hWrite : WritesNonce authorized a a') :
      NonceEffect (.authorizeNonceAccount authority) a a'
  | upgrade {versions upgraded : Nonce.Versions} {a a' : AccountSharedData}
      (hVersions : nonceVersionsOf a = some versions)
      (hUpgraded : versions.upgrade sha256 = some upgraded) (hWrite : WritesNonce upgraded a a') :
      NonceEffect .upgradeNonceAccount a a'
  | withdrawUninitialized {lamports : Nat} {versions : Nonce.Versions} {a : AccountSharedData}
      (hVersions : nonceVersionsOf a = some versions) (hState : versions.state = .uninitialized)
      (hCovered : lamports ≤ a.lamports) (hSigned : key ∈ signers) :
      NonceEffect (.withdrawNonceAccount lamports) a { a with lamports := a.lamports - lamports }
  | withdrawAll {versions : Nonce.Versions} {data : Nonce.Data} {a a₁ : AccountSharedData}
      (hVersions : nonceVersionsOf a = some versions) (hState : versions.state = .initialized data)
      (hSigned : data.authority ∈ signers)
      (hFresh : data.durableNonce ≠ DurableNonce.fromBlockhash sha256 invokeContext.blockhash)
      (hWrite : WritesNonce (.new .uninitialized) a a₁) :
      NonceEffect (.withdrawNonceAccount a.lamports) a { a₁ with lamports := 0 }
  | withdrawPartial {lamports : Nat} {versions : Nonce.Versions} {data : Nonce.Data}
      {a : AccountSharedData} (hVersions : nonceVersionsOf a = some versions)
      (hState : versions.state = .initialized data) (hSigned : data.authority ∈ signers)
      (hPartial : lamports ≠ a.lamports)
      (hKept : lamports + rent.minimumBalance a.data.length ≤ a.lamports) :
      NonceEffect (.withdrawNonceAccount lamports) a { a with lamports := a.lamports - lamports }

/-- The second borrow of a transfer or a withdrawal: the destination is credited. -/
def Credited (instruction : SystemInstruction) (a a' : AccountSharedData) : Prop :=
  a' = a ∨ ∃ lamports, (instruction = .transfer lamports ∨
    instruction = .withdrawNonceAccount lamports) ∧ a' = { a with lamports := a.lamports + lamports }

end Effect

/-! ### What the account holds -/

namespace Nonce.Versions

/-- The durable nonce a state verifies: that of a current, initialized state. -/
def storedNonce : Versions → Option DurableNonce
  | .current (.initialized data) => some data.durableNonce
  | _ => none

/-- The nonce of a legacy, initialized state, taken from a blockhash before the two domains
were separated. -/
def legacyNonce : Versions → Option DurableNonce
  | .legacy (.initialized data) => some data.durableNonce
  | _ => none

def isCurrent : Versions → Bool
  | .current _ => true
  | .legacy _ => false

/-- The authority of an initialized state. -/
def authority? (versions : Versions) : Option Pubkey :=
  match versions.state with
  | .initialized data => some data.authority
  | .uninitialized => none

theorem authorize_views {versions authorized : Versions} {signers : List Pubkey}
    {authority : Pubkey} (h : versions.authorize signers authority = .ok authorized) :
    authorized.storedNonce = versions.storedNonce ∧ authorized.legacyNonce = versions.legacyNonce ∧
      authorized.isCurrent = versions.isCurrent ∧ authorized.authority? = some authority ∧
      ∃ data : Data, versions.state = .initialized data ∧ data.authority ∈ signers ∧
        authorized.state = .initialized ⟨authority, data.durableNonce, data.lamportsPerSignature⟩ := by
  obtain ⟨data, hSigned, ⟨rfl, rfl⟩ | ⟨rfl, rfl⟩⟩ := authorize_eq_ok h <;>
    exact ⟨rfl, rfl, rfl, rfl, data, rfl, hSigned, rfl⟩

end Nonce.Versions

/-- The durable nonce the account verifies. -/
def storedNonce (a : AccountSharedData) : Option DurableNonce :=
  (nonceVersionsOf a).bind Nonce.Versions.storedNonce

def legacyNonce (a : AccountSharedData) : Option DurableNonce :=
  (nonceVersionsOf a).bind Nonce.Versions.legacyNonce

def IsCurrent (a : AccountSharedData) : Prop :=
  (nonceVersionsOf a).any Nonce.Versions.isCurrent = true

def authorityOf (a : AccountSharedData) : Option Pubkey :=
  (nonceVersionsOf a).bind Nonce.Versions.authority?

/-- An initialized nonce keeps the rent-exempt minimum of its data. -/
def RentFunded (rent : Rent) (a : AccountSharedData) : Prop :=
  ∀ versions data, nonceVersionsOf a = some versions → versions.state = .initialized data →
    rent.minimumBalance a.data.length ≤ a.lamports

/-- The account verifies `recentBlockhash`: `verify_recent_blockhash` of its state returns
data. -/
def Verifies (a : AccountSharedData) (recentBlockhash : Hash) : Prop :=
  ∃ versions, nonceVersionsOf a = some versions ∧
    (versions.verifyRecentBlockhash recentBlockhash).isSome

/-- What withdrawing from the account needs signed: its authority, or its own key before it is
initialized. -/
def WithdrawSigned (signers : List Pubkey) (key : Pubkey) (a : AccountSharedData) : Prop :=
  ∃ versions, nonceVersionsOf a = some versions ∧
    match versions.state with
    | .uninitialized => key ∈ signers
    | .initialized data => data.authority ∈ signers

theorem verifies_iff {a : AccountSharedData} {recentBlockhash : Hash} :
    Verifies a recentBlockhash ↔ storedNonce a = some ⟨recentBlockhash⟩ := by
  unfold Verifies storedNonce
  cases nonceVersionsOf a with
  | none => simp
  | some versions =>
      simp only [Option.some.injEq, exists_eq_left', Nonce.Versions.verifyRecentBlockhash_isSome,
        Option.bind_some]
      rcases versions with _ | (_ | ⟨authority, ⟨nonce⟩, lamportsPerSignature⟩) <;>
        simp [Nonce.Versions.storedNonce, Nonce.Data.blockhash, eq_comm]

/-! ### One instruction -/

section Step

variable {sha256 : List UInt8 → Hash} {invokeContext : SystemInvokeContext} {rent : Rent}
  {signers : List Pubkey} {key : Pubkey} {instruction : SystemInstruction}
  {tc tc' : TransactionContext} {ic : InstructionContext} {b : BorrowedAccount}
  {a : AccountSharedData} {i k : Nat}

theorem getKey_of_tryBorrowInstructionAccount (hBorrow : ic.tryBorrowInstructionAccount tc i = .ok b)
    (hIndex : b.indexInTransaction = k) (hKey : tc.accountKeys[k]? = some key) : b.getKey = key := by
  obtain ⟨ia, -, -, hb⟩ := tryBorrowInstructionAccount_eq_ok hBorrow
  have hTc : b.transactionContext = tc := by rw [hb]
  simp [BorrowedAccount.getKey, hTc, hIndex, hKey]

theorem getRent_eq_ok {r : Rent} (h : getRent invokeContext tc ic i = .ok r) :
    invokeContext.rent = some r := by
  simp only [getRent, bind_eq_ok, okOr_eq_ok] at h
  obtain ⟨-, -, hRent⟩ := h
  exact hRent

variable (sha256 invokeContext rent signers key instruction) in
/-- A first borrow whose every run on the nonce account is an effect of `instruction`. -/
theorem borrowAndRun_nonceEffect {f : BorrowedAccountM Unit}
    (h : borrowAndRun tc ic i f = .ok tc') (hAccount : tc.accounts[k]? = some a)
    (hf : ∀ b b', ic.tryBorrowInstructionAccount tc i = .ok b → b.indexInTransaction = k →
      f.run b = .ok () b' →
      NonceEffect sha256 invokeContext rent signers key instruction b.account b'.account) :
    tc'.accountKeys = tc.accountKeys ∧ ∃ a', tc'.accounts[k]? = some a' ∧
      NonceEffect sha256 invokeContext rent signers key instruction a a' := by
  obtain ⟨hKeys, a', hAt, hSame | ⟨b, b', hBorrow, hIndex, rfl, hRun, rfl⟩⟩ :=
    borrowAndRun_account h hAccount
  · exact ⟨hKeys, a', hAt, hSame ▸ .stay _ _⟩
  · exact ⟨hKeys, _, hAt, hf b b' hBorrow hIndex hRun⟩

/-- The credit of a transfer or a withdrawal. -/
theorem borrowAndRun_credited {lamports : Nat}
    (h : borrowAndRun tc ic i (BorrowedAccount.checkedAddLamports lamports) = .ok tc')
    (hAccount : tc.accounts[k]? = some a)
    (hInstruction : instruction = .transfer lamports ∨
      instruction = .withdrawNonceAccount lamports) :
    ∃ a', tc'.accounts[k]? = some a' ∧ Credited instruction a a' := by
  obtain ⟨-, a', hAt, hSame | ⟨b, b', -, -, rfl, hRun, rfl⟩⟩ := borrowAndRun_account h hAccount
  · exact ⟨a', hAt, .inl hSame⟩
  · exact ⟨_, hAt, .inr ⟨lamports, hInstruction, (BorrowedAccount.checkedAddLamports_eq_ok hRun).2⟩⟩

/-- What a nonce instruction or a transfer that returned did to the account at index `k`: an
effect of its first borrow, then the credit of its second. -/
theorem processInstruction_nonceEffect (hRent : invokeContext.rent = some rent)
    (hInstruction : instruction.isNonceOrTransfer = true) (hAccount : tc.accounts[k]? = some a)
    (hKey : tc.accountKeys[k]? = some key)
    (h : processInstruction sha256 invokeContext instruction tc = .ok tc') :
    ∃ ic signers, tc.getCurrentInstructionContext = .ok ic ∧ ic.getSigners tc = .ok signers ∧
      ∃ a₁ a', tc'.accounts[k]? = some a' ∧
        NonceEffect sha256 invokeContext rent signers key instruction a a₁ ∧
        Credited instruction a₁ a' := by
  simp only [processInstruction, bind_eq_ok] at h
  obtain ⟨ic, hIc, signers, hSigners, h⟩ := h
  refine ⟨ic, signers, hIc, hSigners, ?_⟩
  cases instruction
  case transfer lamports =>
    simp only [bind_eq_ok, transfer, transferVerified] at h
    obtain ⟨-, -, -, -, -, -, tc₁, hFrom, hTo⟩ := h
    obtain ⟨hKeys, a₁, hAt₁, hEffect⟩ :=
      borrowAndRun_nonceEffect sha256 invokeContext rent signers key (.transfer lamports) hFrom
      hAccount fun b b' _ _ hRun => by
        obtain ⟨hData, hCovered, hDebit⟩ := transferVerifiedFrom_eq_ok hRun
        exact hDebit ▸ .transferFrom hData hCovered
    obtain ⟨a', hAt, hCredit⟩ := borrowAndRun_credited hTo hAt₁ (.inl rfl)
    exact ⟨a₁, a', hAt, hEffect, hCredit⟩
  case withdrawNonceAccount lamports =>
    simp only [bind_eq_ok, withdrawNonceAccount] at h
    obtain ⟨-, -, -, -, r, hRent', tc₁, hFrom, hTo⟩ := h
    obtain rfl : rent = r := Option.some.inj (hRent.symm.trans (getRent_eq_ok hRent'))
    obtain ⟨hKeys, a₁, hAt₁, hEffect⟩ :=
      borrowAndRun_nonceEffect sha256 invokeContext rent signers key
      (.withdrawNonceAccount lamports) hFrom hAccount fun b b' hBorrow hIndex hRun => by
        obtain ⟨-, versions, hVersions, hCases⟩ := withdrawNonceAccountFrom_eq_ok hRun
        rcases hCases with ⟨hState, hCovered, hSigned, hDebit⟩ |
          ⟨data, hState, hSigned, ⟨rfl, hFresh, a₁, hWrite, hClosed⟩ |
            ⟨hPartial, hKept, hDebit⟩⟩
        · rw [getKey_of_tryBorrowInstructionAccount hBorrow hIndex hKey] at hSigned
          exact hDebit ▸ .withdrawUninitialized hVersions hState hCovered hSigned
        · exact hClosed ▸ .withdrawAll hVersions hState hSigned hFresh hWrite
        · exact hDebit ▸ .withdrawPartial hVersions hState hSigned hPartial hKept
    obtain ⟨a', hAt, hCredit⟩ := borrowAndRun_credited hTo hAt₁ (.inr rfl)
    exact ⟨a₁, a', hAt, hEffect, hCredit⟩
  case advanceNonceAccount =>
    simp only [bind_eq_ok] at h
    obtain ⟨-, -, -, -, -, -, -, -, h⟩ := h
    obtain ⟨-, a', hAt, hEffect⟩ :=
      borrowAndRun_nonceEffect sha256 invokeContext rent signers key .advanceNonceAccount
      h hAccount fun b b' _ _ hRun => by
        obtain ⟨-, versions, data, hVersions, hState, hSigned, hFresh, hWrite⟩ :=
          advanceNonceAccount_eq_ok hRun
        exact .advance hVersions hState hSigned hFresh hWrite
    exact ⟨a', a', hAt, hEffect, .inl rfl⟩
  case initializeNonceAccount authority =>
    simp only [bind_eq_ok] at h
    obtain ⟨-, -, -, -, -, -, -, -, r, hRent', h⟩ := h
    obtain rfl : rent = r := Option.some.inj (hRent.symm.trans (getRent_eq_ok hRent'))
    obtain ⟨-, a', hAt, hEffect⟩ :=
      borrowAndRun_nonceEffect sha256 invokeContext rent signers key (.initializeNonceAccount authority)
      h hAccount fun b b' _ _ hRun => by
        obtain ⟨-, versions, hVersions, hState, hFunded, hWrite⟩ :=
          initializeNonceAccount_eq_ok hRun
        exact .initializeNonce hVersions hState hFunded hWrite
    exact ⟨a', a', hAt, hEffect, .inl rfl⟩
  case authorizeNonceAccount authority =>
    simp only [bind_eq_ok] at h
    obtain ⟨-, -, h⟩ := h
    obtain ⟨-, a', hAt, hEffect⟩ :=
      borrowAndRun_nonceEffect sha256 invokeContext rent signers key (.authorizeNonceAccount authority)
      h hAccount fun b b' _ _ hRun => by
        obtain ⟨-, versions, authorized, hVersions, hAuthorized, hWrite⟩ :=
          authorizeNonceAccount_eq_ok hRun
        exact .authorize hVersions hAuthorized hWrite
    exact ⟨a', a', hAt, hEffect, .inl rfl⟩
  case upgradeNonceAccount =>
    simp only [bind_eq_ok] at h
    obtain ⟨-, -, h⟩ := h
    obtain ⟨-, a', hAt, hEffect⟩ :=
      borrowAndRun_nonceEffect sha256 invokeContext rent signers key .upgradeNonceAccount
      h hAccount fun b b' _ _ hRun => by
        obtain ⟨-, -, versions, upgraded, hVersions, hUpgraded, hWrite⟩ :=
          upgradeNonceAccount_eq_ok hRun
        exact .upgrade hVersions hUpgraded hWrite
    exact ⟨a', a', hAt, hEffect, .inl rfl⟩
  all_goals simp [SystemInstruction.isNonceOrTransfer] at hInstruction

end Step

/-! ### What one instruction does to what the account holds

One lemma per view of the account, each a case analysis on `NonceEffect`; `Credited` moves only
lamports and leaves every view as it was. -/

section Views

variable {sha256 : List UInt8 → Hash} {invokeContext : SystemInvokeContext} {rent : Rent}
  {signers : List Pubkey} {key : Pubkey} {instruction : SystemInstruction}
  {a a' : AccountSharedData} {versions : Nonce.Versions} {N : DurableNonce}

theorem nonceVersionsOf_congr (h : a'.data = a.data) : nonceVersionsOf a' = nonceVersionsOf a := by
  simp [nonceVersionsOf, h]

/-- A current nonce written with the bank's fee, which fits its `u128`. -/
theorem WritesNonce.nonceVersionsOf_current {data : Nonce.Data}
    (h : WritesNonce (.new (.initialized data)) a a') (hFee : data.lamportsPerSignature < 2 ^ 128) :
    nonceVersionsOf a' = some (.current (.initialized data)) :=
  h.nonceVersionsOf_eq hFee

theorem WritesNonce.nonceVersionsOf_uninitialized (h : WritesNonce (.new .uninitialized) a a') :
    nonceVersionsOf a' = some (.current .uninitialized) :=
  h.nonceVersionsOf_eq trivial

theorem nonceVersionsOf_authorized {authority : Pubkey} {authorized : Nonce.Versions}
    (hVersions : nonceVersionsOf a = some versions)
    (hAuthorized : versions.authorize signers authority = .ok authorized)
    (hWrite : WritesNonce authorized a a') : nonceVersionsOf a' = some authorized := by
  obtain ⟨-, -, -, -, data, hState, -, hNew⟩ := Nonce.Versions.authorize_views hAuthorized
  have hFits := AccountSharedData.feeFits_of_nonceVersionsOf hVersions
  rw [hState] at hFits
  exact hWrite.nonceVersionsOf_eq (by rw [hNew]; exact hFits)

/-- An upgrade writes the legacy data with its blockhash moved into the durable-nonce domain. -/
theorem nonceVersionsOf_upgraded {upgraded : Nonce.Versions}
    (hVersions : nonceVersionsOf a = some versions)
    (hUpgraded : versions.upgrade sha256 = some upgraded) (hWrite : WritesNonce upgraded a a') :
    ∃ data, versions = .legacy (.initialized data) ∧ nonceVersionsOf a' = some (.current
      (.initialized { data with durableNonce := DurableNonce.fromBlockhash sha256 data.blockhash })) := by
  obtain ⟨data, rfl, rfl⟩ := Nonce.Versions.upgrade_eq_some.mp hUpgraded
  have hFits := AccountSharedData.feeFits_of_nonceVersionsOf hVersions
  exact ⟨data, rfl, hWrite.nonceVersionsOf_eq hFits⟩

/-- A stored nonce is that of the initialized state the account holds. -/
theorem storedNonce_eq_some (hVersions : nonceVersionsOf a = some versions)
    (h : storedNonce a = some N) :
    ∃ data, versions = .current (.initialized data) ∧ N = data.durableNonce := by
  rw [storedNonce, hVersions, Option.bind_some] at h
  rcases versions with _ | (_ | data) <;> simp [Nonce.Versions.storedNonce] at h
  exact ⟨data, rfl, h.symm⟩

namespace NonceEffect

variable (hE : NonceEffect sha256 invokeContext rent signers key instruction a a')
include hE

/-- A nonce account stays one: every write is of versions that decode. -/
theorem isSome_nonceVersionsOf (ha : (nonceVersionsOf a).isSome) :
    (nonceVersionsOf a').isSome := by
  cases hE with
  | stay => exact ha
  | transferFrom => simpa using ha
  | advance _ _ _ _ hWrite => simp [hWrite.nonceVersionsOf_current invokeContext.lamportsPerSignature_lt]
  | initializeNonce _ _ _ hWrite => simp [hWrite.nonceVersionsOf_current invokeContext.lamportsPerSignature_lt]
  | authorize hVersions hAuthorized hWrite =>
      simp [nonceVersionsOf_authorized hVersions hAuthorized hWrite]
  | upgrade hVersions hUpgraded hWrite =>
      obtain ⟨_, -, hAfter⟩ := nonceVersionsOf_upgraded hVersions hUpgraded hWrite
      simp [hAfter]
  | withdrawUninitialized => simpa using ha
  | withdrawAll _ _ _ _ hWrite => simp [hWrite.nonceVersionsOf_uninitialized]
  | withdrawPartial => simpa using ha

/-- An initialized nonce keeps its rent-exempt minimum. -/
theorem rentFunded (ha : RentFunded rent a) : RentFunded rent a' := by
  cases hE with
  | stay => exact ha
  | transferFrom hData =>
      intro versions data hVersions
      rw [AccountSharedData.nonceVersionsOf_lamports,
        AccountSharedData.nonceVersionsOf_eq_none_of_data hData] at hVersions
      cases hVersions
  | advance hVersions hState _ _ hWrite =>
      intro _ _ _ _
      rw [hWrite.length_eq, hWrite.lamports_eq]
      exact ha _ _ hVersions hState
  | initializeNonce _ _ hFunded hWrite =>
      intro _ _ _ _
      rw [hWrite.length_eq, hWrite.lamports_eq]
      exact hFunded
  | authorize hVersions hAuthorized hWrite =>
      intro _ _ _ _
      obtain ⟨-, -, -, -, data, hState, -⟩ := Nonce.Versions.authorize_views hAuthorized
      rw [hWrite.length_eq, hWrite.lamports_eq]
      exact ha _ _ hVersions hState
  | upgrade hVersions hUpgraded hWrite =>
      intro _ _ _ _
      obtain ⟨data, rfl, -⟩ := nonceVersionsOf_upgraded hVersions hUpgraded hWrite
      rw [hWrite.length_eq, hWrite.lamports_eq]
      exact ha _ data hVersions rfl
  | withdrawUninitialized hVersions hState =>
      -- the data, and so the uninitialized state, stays
      intro _ _ hAfter hInitialized
      rw [AccountSharedData.nonceVersionsOf_lamports, hVersions] at hAfter
      cases hAfter
      rw [hState] at hInitialized
      cases hInitialized
  | withdrawAll _ _ _ _ hWrite =>
      intro _ _ hAfter hInitialized
      rw [AccountSharedData.nonceVersionsOf_lamports, hWrite.nonceVersionsOf_uninitialized] at hAfter
      cases hAfter
      cases hInitialized
  | withdrawPartial _ _ _ _ hKept =>
      intro _ _ _ _
      dsimp only
      omega

theorem isCurrent (ha : IsCurrent a) : IsCurrent a' := by
  unfold IsCurrent at ha ⊢
  cases hE with
  | stay => exact ha
  | transferFrom => simpa using ha
  | advance _ _ _ _ hWrite => simp [hWrite.nonceVersionsOf_current invokeContext.lamportsPerSignature_lt,
        Nonce.Versions.isCurrent]
  | initializeNonce _ _ _ hWrite => simp [hWrite.nonceVersionsOf_current invokeContext.lamportsPerSignature_lt,
        Nonce.Versions.isCurrent]
  | authorize hVersions hAuthorized hWrite =>
      obtain ⟨-, -, hCurrent, -⟩ := Nonce.Versions.authorize_views hAuthorized
      rw [hVersions] at ha
      simpa [nonceVersionsOf_authorized hVersions hAuthorized hWrite, hCurrent] using ha
  | upgrade hVersions hUpgraded hWrite =>
      -- only a legacy nonce upgrades
      obtain ⟨_, rfl, -⟩ := nonceVersionsOf_upgraded hVersions hUpgraded hWrite
      simp [hVersions, Nonce.Versions.isCurrent] at ha
  | withdrawUninitialized => simpa using ha
  | withdrawAll _ _ _ _ hWrite =>
      simp [hWrite.nonceVersionsOf_uninitialized, Nonce.Versions.isCurrent]
  | withdrawPartial => simpa using ha

/-- A legacy nonce after the instruction was there before it: no instruction writes one. -/
theorem legacyNonce_of {L : DurableNonce} (h : legacyNonce a' = some L) : legacyNonce a = some L := by
  unfold legacyNonce at h ⊢
  cases hE with
  | stay => exact h
  | transferFrom => simpa using h
  | advance _ _ _ _ hWrite =>
      simp [hWrite.nonceVersionsOf_current invokeContext.lamportsPerSignature_lt, Nonce.Versions.legacyNonce] at h
  | initializeNonce _ _ _ hWrite =>
      simp [hWrite.nonceVersionsOf_current invokeContext.lamportsPerSignature_lt, Nonce.Versions.legacyNonce] at h
  | authorize hVersions hAuthorized hWrite =>
      obtain ⟨-, hLegacy, -⟩ := Nonce.Versions.authorize_views hAuthorized
      rw [nonceVersionsOf_authorized hVersions hAuthorized hWrite, Option.bind_some, hLegacy] at h
      rw [hVersions, Option.bind_some, h]
  | upgrade hVersions hUpgraded hWrite =>
      obtain ⟨_, -, hAfter⟩ := nonceVersionsOf_upgraded hVersions hUpgraded hWrite
      simp [hAfter, Nonce.Versions.legacyNonce] at h
  | withdrawUninitialized => simpa using h
  | withdrawAll _ _ _ _ hWrite =>
      simp [hWrite.nonceVersionsOf_uninitialized, Nonce.Versions.legacyNonce] at h
  | withdrawPartial => simpa using h

/-- Where a newly stored nonce comes from: the bank's blockhash, or the upgrade of the legacy
nonce the account held. -/
theorem storedNonce_new (h : storedNonce a' = some N) (hNew : storedNonce a ≠ some N) :
    N = DurableNonce.fromBlockhash sha256 invokeContext.blockhash ∨
      ∃ L, legacyNonce a = some L ∧ N = DurableNonce.fromBlockhash sha256 L.hash := by
  unfold storedNonce at h hNew
  cases hE with
  | stay => exact absurd h hNew
  | transferFrom => simp at h; exact absurd h hNew
  | advance _ _ _ _ hWrite =>
      simp only [hWrite.nonceVersionsOf_current invokeContext.lamportsPerSignature_lt, Option.bind_some, Nonce.Versions.storedNonce,
        Option.some.injEq] at h
      exact .inl h.symm
  | initializeNonce _ _ _ hWrite =>
      simp only [hWrite.nonceVersionsOf_current invokeContext.lamportsPerSignature_lt, Option.bind_some, Nonce.Versions.storedNonce,
        Option.some.injEq] at h
      exact .inl h.symm
  | authorize hVersions hAuthorized hWrite =>
      obtain ⟨hStored, -⟩ := Nonce.Versions.authorize_views hAuthorized
      rw [nonceVersionsOf_authorized hVersions hAuthorized hWrite, Option.bind_some, hStored,
        ← Option.bind_some (f := Nonce.Versions.storedNonce), ← hVersions] at h
      exact absurd h hNew
  | upgrade hVersions hUpgraded hWrite =>
      obtain ⟨data, rfl, hAfter⟩ := nonceVersionsOf_upgraded hVersions hUpgraded hWrite
      simp only [hAfter, Option.bind_some, Nonce.Versions.storedNonce, Option.some.injEq] at h
      exact .inr ⟨data.durableNonce, by simp [legacyNonce, hVersions, Nonce.Versions.legacyNonce],
        h.symm⟩
  | withdrawUninitialized => simp at h; exact absurd h hNew
  | withdrawAll _ _ _ _ hWrite =>
      simp [hWrite.nonceVersionsOf_uninitialized, Nonce.Versions.storedNonce] at h
  | withdrawPartial => simp at h; exact absurd h hNew

/-- A stored nonce goes away only under a blockhash whose nonce it is not: advancing and
closing both refuse the current blockhash's nonce. -/
theorem storedNonce_gone (h : storedNonce a = some N) (hGone : storedNonce a' ≠ some N) :
    N ≠ DurableNonce.fromBlockhash sha256 invokeContext.blockhash := by
  cases hE with
  | stay => exact absurd h hGone
  | transferFrom => exact absurd (by simpa [storedNonce] using h) hGone
  | advance hVersions hState _ hFresh =>
      obtain ⟨data, rfl, rfl⟩ := storedNonce_eq_some hVersions h
      cases hState
      exact hFresh
  | initializeNonce hVersions hState =>
      obtain ⟨data, rfl, -⟩ := storedNonce_eq_some hVersions h
      cases hState
  | authorize hVersions hAuthorized hWrite =>
      obtain ⟨hStored, -⟩ := Nonce.Versions.authorize_views hAuthorized
      refine absurd ?_ hGone
      rw [storedNonce, nonceVersionsOf_authorized hVersions hAuthorized hWrite, Option.bind_some,
        hStored, ← h, storedNonce, hVersions, Option.bind_some]
  | upgrade hVersions hUpgraded hWrite =>
      obtain ⟨data, rfl, -⟩ := nonceVersionsOf_upgraded hVersions hUpgraded hWrite
      obtain ⟨_, hLegacy, -⟩ := storedNonce_eq_some hVersions h
      cases hLegacy
  | withdrawUninitialized => exact absurd (by simpa [storedNonce] using h) hGone
  | withdrawAll hVersions hState _ hFresh =>
      obtain ⟨data, rfl, rfl⟩ := storedNonce_eq_some hVersions h
      cases hState
      exact hFresh
  | withdrawPartial => exact absurd (by simpa [storedNonce] using h) hGone

/-- The authority changes only by `AuthorizeNonceAccount`, signed by the old authority. -/
theorem authority_changed {A A' : Pubkey} (h : authorityOf a = some A)
    (h' : authorityOf a' = some A') (hChanged : A' ≠ A) :
    instruction = .authorizeNonceAccount A' ∧ A ∈ signers := by
  cases hE with
  | stay => exact absurd (Option.some.inj (h'.symm.trans h)) hChanged
  | transferFrom => exact absurd (Option.some.inj (h'.symm.trans (by simpa [authorityOf] using h))) hChanged
  | advance hVersions hState _ _ hWrite =>
      simp only [authorityOf, hVersions, Option.bind_some, Nonce.Versions.authority?, hState,
        Option.some.injEq] at h
      simp [authorityOf, hWrite.nonceVersionsOf_current invokeContext.lamportsPerSignature_lt,
        Nonce.Versions.authority?, Nonce.Versions.state] at h'
      exact absurd (h'.symm.trans h) hChanged
  | initializeNonce hVersions hState =>
      simp [authorityOf, hVersions, Nonce.Versions.authority?, hState] at h
  | authorize hVersions hAuthorized hWrite =>
      obtain ⟨-, -, -, hNew, data, hState, hSigned, -⟩ := Nonce.Versions.authorize_views hAuthorized
      simp only [authorityOf, nonceVersionsOf_authorized hVersions hAuthorized hWrite,
        Option.bind_some, hNew, Option.some.injEq] at h'
      simp only [authorityOf, hVersions, Option.bind_some, Nonce.Versions.authority?, hState,
        Option.some.injEq] at h
      exact ⟨by rw [h'], h ▸ hSigned⟩
  | upgrade hVersions hUpgraded hWrite =>
      -- an upgrade keeps the authority
      obtain ⟨data, rfl, hAfter⟩ := nonceVersionsOf_upgraded hVersions hUpgraded hWrite
      simp [authorityOf, hVersions, hAfter, Nonce.Versions.authority?, Nonce.Versions.state] at h h'
      exact absurd (h'.symm.trans h) hChanged
  | withdrawUninitialized =>
      exact absurd (Option.some.inj (h'.symm.trans (by simpa [authorityOf] using h))) hChanged
  | withdrawAll _ _ _ _ hWrite =>
      simp [authorityOf, hWrite.nonceVersionsOf_uninitialized, Nonce.Versions.authority?,
        Nonce.Versions.state] at h'
  | withdrawPartial =>
      exact absurd (Option.some.inj (h'.symm.trans (by simpa [authorityOf] using h))) hChanged

/-- Lamports leave a nonce account only by `WithdrawNonceAccount`, signed as the state asks. -/
theorem lamports_lt (ha : (nonceVersionsOf a).isSome) (hLess : a'.lamports < a.lamports) :
    ∃ lamports, instruction = .withdrawNonceAccount lamports ∧ WithdrawSigned signers key a := by
  cases hE with
  | stay => exact absurd hLess (Nat.lt_irrefl _)
  | transferFrom hData =>
      -- a transfer debits only an account without data, which holds no nonce
      simp [AccountSharedData.nonceVersionsOf_eq_none_of_data hData] at ha
  | advance _ _ _ _ hWrite => exact absurd hWrite.lamports_eq (Nat.ne_of_lt hLess)
  | initializeNonce _ _ _ hWrite => exact absurd hWrite.lamports_eq (Nat.ne_of_lt hLess)
  | authorize _ _ hWrite => exact absurd hWrite.lamports_eq (Nat.ne_of_lt hLess)
  | upgrade _ _ hWrite => exact absurd hWrite.lamports_eq (Nat.ne_of_lt hLess)
  | withdrawUninitialized hVersions hState _ hSigned =>
      exact ⟨_, rfl, _, hVersions, by rw [hState]; exact hSigned⟩
  | withdrawAll hVersions hState hSigned =>
      exact ⟨_, rfl, _, hVersions, by rw [hState]; exact hSigned⟩
  | withdrawPartial hVersions hState hSigned =>
      exact ⟨_, rfl, _, hVersions, by rw [hState]; exact hSigned⟩

end NonceEffect

namespace Credited

theorem data_eq (h : Credited instruction a a') : a'.data = a.data := by
  rcases h with rfl | ⟨_, -, rfl⟩ <;> rfl

theorem lamports_le (h : Credited instruction a a') : a.lamports ≤ a'.lamports := by
  rcases h with rfl | ⟨_, -, rfl⟩
  · exact Nat.le_refl _
  · exact Nat.le_add_right _ _

theorem nonceVersionsOf_eq (h : Credited instruction a a') :
    nonceVersionsOf a' = nonceVersionsOf a :=
  nonceVersionsOf_congr h.data_eq

theorem rentFunded (h : Credited instruction a a') (ha : RentFunded rent a) :
    RentFunded rent a' := by
  intro versions data hVersions hState
  rw [h.data_eq]
  exact Nat.le_trans (ha versions data (h.nonceVersionsOf_eq ▸ hVersions) hState) h.lamports_le

end Credited

end Views

/-! ### Runs -/

/-- One instruction of a nonce run: the invoke context and the instruction, the transaction it
ran in and the one it left, and the nonce account's index in the transaction. -/
structure NonceStep where
  invokeContext : SystemInvokeContext
  instruction : SystemInstruction
  before : TransactionContext
  after : TransactionContext
  index : Nat

namespace NonceStep

/-- The signers of the step's instruction, as `process_instruction` collects them. -/
def signers (step : NonceStep) : Except InstructionError (List Pubkey) := do
  (← step.before.getCurrentInstructionContext).getSigners step.before

/-- The step is a nonce instruction or a transfer that returned, run where the account with key
`key` is `a`, and leaving it `a'`. -/
def Runs (sha256 : List UInt8 → Hash) (key : Pubkey) (step : NonceStep)
    (a a' : AccountSharedData) : Prop :=
  step.instruction.isNonceOrTransfer = true ∧ step.before.accountKeys[step.index]? = some key ∧
    step.before.accounts[step.index]? = some a ∧
    processInstruction sha256 step.invokeContext step.instruction step.before = .ok step.after ∧
    step.after.accounts[step.index]? = some a'

theorem Runs.effect {sha256 : List UInt8 → Hash} {key : Pubkey} {rent : Rent} {step : NonceStep}
    {a a' : AccountSharedData} (h : step.Runs sha256 key a a')
    (hRent : step.invokeContext.rent = some rent) :
    ∃ signers a₁, step.signers = .ok signers ∧
      NonceEffect sha256 step.invokeContext rent signers key step.instruction a a₁ ∧
      Credited step.instruction a₁ a' := by
  obtain ⟨hInstruction, hKey, hAccount, hProcess, hAfter⟩ := h
  obtain ⟨ic, signers, hIc, hSigners, a₁, a'', hAt, hEffect, hCredit⟩ :=
    processInstruction_nonceEffect hRent hInstruction hAccount hKey hProcess
  obtain rfl : a'' = a' := Option.some.inj (hAt.symm.trans hAfter)
  exact ⟨signers, a₁, by simp [NonceStep.signers, hIc, hSigners], hEffect, hCredit⟩

end NonceStep

/-- A run of `n` nonce instructions and transfers on the account with key `key` under the rent
`rent`: step `j` takes the account from `states j` to `states (j + 1)`. -/
structure NonceRun (sha256 : List UInt8 → Hash) (key : Pubkey) (rent : Rent)
    (steps : ℕ → NonceStep) (states : ℕ → AccountSharedData) (n : ℕ) : Prop where
  runs : ∀ j < n, (steps j).Runs sha256 key (states j) (states (j + 1))
  rent : ∀ j < n, (steps j).invokeContext.rent = some rent

section Account

variable {a : AccountSharedData} {N L : DurableNonce}

theorem isCurrent_of_storedNonce (h : storedNonce a = some N) : IsCurrent a := by
  cases hVersions : nonceVersionsOf a with
  | none => simp [storedNonce, hVersions] at h
  | some versions =>
      obtain ⟨data, rfl, -⟩ := storedNonce_eq_some hVersions h
      simp [IsCurrent, hVersions, Nonce.Versions.isCurrent]

theorem not_isCurrent_of_legacyNonce (h : legacyNonce a = some L) : ¬IsCurrent a := by
  cases hVersions : nonceVersionsOf a with
  | none => simp [legacyNonce, hVersions] at h
  | some versions =>
      rw [legacyNonce, hVersions, Option.bind_some] at h
      rcases versions with (_ | _) | _ <;>
        simp_all [IsCurrent, Nonce.Versions.legacyNonce, Nonce.Versions.isCurrent]

end Account

namespace NonceRun

variable {sha256 : List UInt8 → Hash} {key : Pubkey} {rent : Rent} {steps : ℕ → NonceStep}
  {states : ℕ → AccountSharedData} {n : ℕ} {N : DurableNonce}
  (hRun : NonceRun sha256 key rent steps states n)
include hRun

theorem step {j : ℕ} (hj : j < n) :
    ∃ signers a₁, (steps j).signers = .ok signers ∧
      NonceEffect sha256 (steps j).invokeContext rent signers key (steps j).instruction
        (states j) a₁ ∧ Credited (steps j).instruction a₁ (states (j + 1)) :=
  (hRun.runs j hj).effect (hRun.rent j hj)

/-- A nonce account stays one along the run. -/
theorem isSome_nonceVersionsOf (h₀ : (nonceVersionsOf (states 0)).isSome) :
    ∀ j ≤ n, (nonceVersionsOf (states j)).isSome := fun j hj =>
  Lib.Run.le_induction_run (P := fun j => (nonceVersionsOf (states j)).isSome) h₀
    (fun j _ hj hBefore => by
    obtain ⟨_, _, -, hEffect, hCredit⟩ := hRun.step hj
    rw [hCredit.nonceVersionsOf_eq]
    exact hEffect.isSome_nonceVersionsOf hBefore) j (Nat.zero_le j) hj

theorem rentFunded (h₀ : RentFunded rent (states 0)) : ∀ j ≤ n, RentFunded rent (states j) :=
  fun j hj => Lib.Run.le_induction_run (P := fun j => RentFunded rent (states j)) h₀
    (fun j _ hj hBefore => by
    obtain ⟨_, _, -, hEffect, hCredit⟩ := hRun.step hj
    exact hCredit.rentFunded (hEffect.rentFunded hBefore)) j (Nat.zero_le j) hj

/-- Once current, always current: nothing writes a legacy state. -/
theorem isCurrent_of_le {x : ℕ} (hx : IsCurrent (states x)) :
    ∀ y, x ≤ y → y ≤ n → IsCurrent (states y) :=
  Lib.Run.le_induction_run (P := fun j => IsCurrent (states j)) hx fun j _ hj hBefore => by
    obtain ⟨_, _, -, hEffect, hCredit⟩ := hRun.step hj
    unfold IsCurrent
    rw [hCredit.nonceVersionsOf_eq]
    exact hEffect.isCurrent hBefore

/-- A legacy nonce anywhere in the run is the one the account started with. -/
theorem legacyNonce_start {L : DurableNonce} {j : ℕ} (h : legacyNonce (states j) = some L)
    (hj : j ≤ n) : legacyNonce (states 0) = some L :=
  Lib.Run.le_induction_run (P := fun j => legacyNonce (states j) = some L →
      legacyNonce (states 0) = some L) id
    (fun j _ hj hBack hNext => by
      obtain ⟨_, _, -, hEffect, hCredit⟩ := hRun.step hj
      rw [legacyNonce, hCredit.nonceVersionsOf_eq] at hNext
      exact hBack (hEffect.legacyNonce_of hNext)) j (Nat.zero_le j) hj h

theorem storedNonce_new {j : ℕ} (hj : j < n) (h : storedNonce (states (j + 1)) = some N)
    (hNew : storedNonce (states j) ≠ some N) :
    N = DurableNonce.fromBlockhash sha256 (steps j).invokeContext.blockhash ∨
      ∃ L, legacyNonce (states j) = some L ∧ N = DurableNonce.fromBlockhash sha256 L.hash := by
  obtain ⟨_, _, -, hEffect, hCredit⟩ := hRun.step hj
  rw [storedNonce, hCredit.nonceVersionsOf_eq] at h
  exact hEffect.storedNonce_new h hNew

theorem storedNonce_gone {j : ℕ} (hj : j < n) (h : storedNonce (states j) = some N)
    (hGone : storedNonce (states (j + 1)) ≠ some N) :
    N ≠ DurableNonce.fromBlockhash sha256 (steps j).invokeContext.blockhash := by
  obtain ⟨_, _, -, hEffect, hCredit⟩ := hRun.step hj
  rw [storedNonce, hCredit.nonceVersionsOf_eq] at hGone
  exact hEffect.storedNonce_gone h hGone

/-- Where a nonce stored at `m` comes from: the start of the run, the upgrade of the legacy nonce
the run started with, or the blockhash of an earlier step. -/
theorem storedNonce_origin {m : ℕ} (hm : m ≤ n) (h : storedNonce (states m) = some N) :
    storedNonce (states 0) = some N ∨
      (∃ L, legacyNonce (states 0) = some L ∧ N = DurableNonce.fromBlockhash sha256 L.hash) ∨
      ∃ r < m, N = DurableNonce.fromBlockhash sha256 (steps r).invokeContext.blockhash := by
  induction m with
  | zero => exact .inl h
  | succ m ih =>
      by_cases hBefore : storedNonce (states m) = some N
      · rcases ih (Nat.le_of_succ_le hm) hBefore with hStart | hLegacy | ⟨r, hr, hN⟩
        · exact .inl hStart
        · exact .inr (.inl hLegacy)
        · exact .inr (.inr ⟨r, Nat.lt_succ_of_lt hr, hN⟩)
      · rcases hRun.storedNonce_new hm h hBefore with hN | ⟨L, hL, hN⟩
        · exact .inr (.inr ⟨m, Nat.lt_succ_self m, hN⟩)
        · exact .inr (.inl ⟨L, hRun.legacyNonce_start hL (Nat.le_of_succ_le hm), hN⟩)

/-- A durable nonce, once gone from the account, is never stored again. It went away at a step
`t` under a blockhash whose nonce it is not, and could come back at a later step `q` only as the
nonce of `q`'s blockhash; it was made before `t` from a blockhash, which is then `q`'s, so the
slot of `t` lies between two steps of one slot and `t` ran under that blockhash too. -/
theorem storedNonce_not_again (hInjective : Function.Injective (DurableNonce.fromBlockhash sha256))
    {slot : ℕ → ℕ} (hSlot : ∀ x y, x ≤ y → y < n → slot x ≤ slot y)
    (hBlockhash : ∀ x y, x < n → y < n →
      ((steps x).invokeContext.blockhash = (steps y).invokeContext.blockhash ↔ slot x = slot y))
    (hOrigin : ∀ j < n, storedNonce (states 0) ≠
        some (DurableNonce.fromBlockhash sha256 (steps j).invokeContext.blockhash) ∧
      ∀ L, legacyNonce (states 0) = some L → L.hash ≠ (steps j).invokeContext.blockhash)
    {i j l : ℕ} (hij : i < j) (hjl : j < l) (hl : l ≤ n) (hi : storedNonce (states i) = some N)
    (hj : storedNonce (states j) ≠ some N) : storedNonce (states l) ≠ some N := by
  intro hBack
  -- the step `t` that took the nonce away, and the step `q` that brought it back
  obtain ⟨t, hit, htj, hStoredAt, hGoneAfter⟩ :=
    Lib.Run.exists_change (P := fun x => storedNonce (states x) = some N) hij.le hi hj
  obtain ⟨q, hjq, hql, hGoneAt, hStoredAfter⟩ :=
    Lib.Run.exists_change (P := fun x => storedNonce (states x) ≠ some N) hjl.le hj
      (not_not.mpr hBack)
  have hq : q < n := Nat.lt_of_lt_of_le hql hl
  have htq : t ≤ q := by omega
  have hFresh := hRun.storedNonce_gone (Nat.lt_of_le_of_lt htq hq) hStoredAt hGoneAfter
  rcases hRun.storedNonce_new hq (not_not.mp hStoredAfter) hGoneAt with hNow | ⟨L, hLegacy, -⟩
  · rcases hRun.storedNonce_origin (Nat.le_of_lt (Nat.lt_of_le_of_lt htq hq)) hStoredAt with
      hStart | ⟨L, hStart, hN⟩ | ⟨r, hrt, hMade⟩
    · exact (hOrigin q hq).1 (hStart.trans (congrArg some hNow))
    · exact (hOrigin q hq).2 L hStart (hInjective (hN.symm.trans hNow))
    · -- made at `r` from the blockhash it came back with at `q`, so `t` ran under it too
      have hSame := hInjective (hMade.symm.trans hNow)
      have hAtT := Lib.Run.eq_between_of_slot hSlot hBlockhash (Nat.le_of_lt hrt) htq hq hSame
      exact hFresh (hNow.trans (congrArg _ hAtT.symm))
  · -- only a legacy nonce upgrades, and the account has been current since `t`
    exact not_isCurrent_of_legacyNonce hLegacy
      (hRun.isCurrent_of_le (isCurrent_of_storedNonce hStoredAt) q htq (Nat.le_of_lt hq))

theorem authority_changed {j : ℕ} (hj : j < n) {A A' : Pubkey}
    (h : authorityOf (states j) = some A) (h' : authorityOf (states (j + 1)) = some A')
    (hChanged : A' ≠ A) : (steps j).instruction = .authorizeNonceAccount A' ∧
      ∃ signers, (steps j).signers = .ok signers ∧ A ∈ signers := by
  obtain ⟨signers, _, hSigners, hEffect, hCredit⟩ := hRun.step hj
  rw [authorityOf, hCredit.nonceVersionsOf_eq] at h'
  obtain ⟨hInstruction, hSigned⟩ := hEffect.authority_changed h h' hChanged
  exact ⟨hInstruction, signers, hSigners, hSigned⟩

theorem lamports_lt {j : ℕ} (hj : j < n) (ha : (nonceVersionsOf (states j)).isSome)
    (hLess : (states (j + 1)).lamports < (states j).lamports) :
    ∃ lamports signers, (steps j).instruction = .withdrawNonceAccount lamports ∧
      (steps j).signers = .ok signers ∧ WithdrawSigned signers key (states j) := by
  obtain ⟨signers, _, hSigners, hEffect, hCredit⟩ := hRun.step hj
  obtain ⟨lamports, hInstruction, hSigned⟩ :=
    hEffect.lamports_lt ha (Nat.lt_of_le_of_lt hCredit.lamports_le hLess)
  exact ⟨lamports, signers, hInstruction, hSigners, hSigned⟩

end NonceRun

/-- The step that runs `instruction` on `before` and keeps the transaction it returned. -/
def NonceStep.run (sha256 : List UInt8 → Hash) (invokeContext : SystemInvokeContext)
    (instruction : SystemInstruction) (before : TransactionContext) (index : Nat) : NonceStep :=
  ⟨invokeContext, instruction, before,
    (processInstruction sha256 invokeContext instruction before).toOption.getD before, index⟩

theorem NonceStep.run_runs {sha256 : List UInt8 → Hash} {invokeContext : SystemInvokeContext}
    {instruction : SystemInstruction} {before : TransactionContext} {index : Nat} {key : Pubkey}
    {a a' : AccountSharedData} (hInstruction : instruction.isNonceOrTransfer = true)
    (hKey : before.accountKeys[index]? = some key) (hAccount : before.accounts[index]? = some a)
    (hAfter : (processInstruction sha256 invokeContext instruction before).toOption.map
      (·.accounts[index]?) = some (some a')) :
    (NonceStep.run sha256 invokeContext instruction before index).Runs sha256 key a a' := by
  refine ⟨hInstruction, hKey, hAccount, ?_⟩
  cases hResult : processInstruction sha256 invokeContext instruction before with
  | error e => simp [hResult, Except.toOption] at hAfter
  | ok after =>
      simp only [hResult, Except.toOption, Option.map_some, Option.some.injEq] at hAfter
      exact ⟨by simp [NonceStep.run, hResult, Except.toOption], by
        simpa [NonceStep.run, hResult, Except.toOption] using hAfter⟩

/-- A nonce taken in a slot before the run, under a blockhash that no slot of the run shares
(blockhashes of different slots differ), is the nonce of none of the run's blockhashes. -/
theorem origin_of_earlier_slot {sha256 : List UInt8 → Hash} {steps : ℕ → NonceStep}
    {states : ℕ → AccountSharedData} {n : ℕ}
    (hInjective : Function.Injective (DurableNonce.fromBlockhash sha256)) {slot : ℕ → ℕ} (hSlot : ∀ x y, x ≤ y → y < n → slot x ≤ slot y) {slot₀ : ℕ} {blockhash₀ : Hash}
    (hEarlier : slot₀ < slot 0)
    (hDistinct : ∀ j < n, (steps j).invokeContext.blockhash = blockhash₀ ↔ slot j = slot₀)
    (hStored : ∀ N, storedNonce (states 0) = some N →
      N = DurableNonce.fromBlockhash sha256 blockhash₀)
    (hLegacy : ∀ L, legacyNonce (states 0) = some L → L.hash = blockhash₀) :
    ∀ j < n, storedNonce (states 0) ≠
        some (DurableNonce.fromBlockhash sha256 (steps j).invokeContext.blockhash) ∧
      ∀ L, legacyNonce (states 0) = some L → L.hash ≠ (steps j).invokeContext.blockhash := by
  intro j hj
  -- step `j` runs in a slot after the one the nonce was taken in, so under another blockhash
  have hOther : (steps j).invokeContext.blockhash ≠ blockhash₀ := fun hEq =>
    Nat.ne_of_gt (Nat.lt_of_lt_of_le hEarlier (hSlot 0 j (Nat.zero_le j) hj)) ((hDistinct j hj).mp hEq)
  exact ⟨fun hAt => hOther (hInjective (hStored _ hAt)),
    fun L hL hEq => hOther (hEq.symm.trans (hLegacy L hL))⟩

/-- A stand-in for SHA-256 on the input of `DurableNonce::from_blockhash` that reads the
blockhash back from behind the prefix, so that its durable nonces do not collide. -/
def prefixDroppingHash (bytes : List UInt8) : Hash :=
  ⟨Vector.ofFn fun i => bytes.getD (13 + i.val) 0⟩

theorem fromBlockhash_prefixDroppingHash (blockhash : Hash) :
    DurableNonce.fromBlockhash prefixDroppingHash blockhash = ⟨blockhash⟩ := by
  have hLength : durableNonceHashPrefix.length = 13 := by decide +kernel
  obtain ⟨bytes⟩ := blockhash
  simp only [DurableNonce.fromBlockhash, prefixDroppingHash, DurableNonce.mk.injEq, Hash.mk.injEq]
  ext i hi
  simp [List.getD_eq_getElem?_getD, List.getElem?_append_right, hLength]

theorem fromBlockhash_prefixDroppingHash_injective :
    Function.Injective (DurableNonce.fromBlockhash prefixDroppingHash) := by
  intro x y h
  rw [fromBlockhash_prefixDroppingHash, fromBlockhash_prefixDroppingHash] at h
  exact DurableNonce.mk.inj h

def hashOf (byte : UInt8) : Hash := ⟨Vector.replicate 32 byte⟩

def nonceKey : Pubkey := ⟨Vector.replicate 32 9⟩

def payerKey : Pubkey := ⟨Vector.replicate 32 7⟩

/-- The default rent: 3480 lamports per byte-year, exempt at two years, half burnt. -/
def defaultRent : Rent := ⟨3480, .finite 2 0, 50⟩

theorem nonceLamportsPerSignature_lt : 5000 < 2 ^ 128 := by decide

def nonceInvokeContext (blockhash : Hash) : SystemInvokeContext :=
  ⟨blockhash, 5000, nonceLamportsPerSignature_lt, some [blockhash], some defaultRent⟩

/-- A nonce account of 88 bytes, the size of an initialized state. -/
def nonceAccount (lamports : Nat) (versions : Nonce.Versions) : AccountSharedData :=
  let bytes := Wire.nonceVersions.encode versions
  ⟨lamports, bytes ++ List.replicate (88 - bytes.length) 0, systemProgramId, false, 0⟩

def systemAccount (lamports : Nat) : AccountSharedData := ⟨lamports, [], systemProgramId, false, 0⟩

/-- One frame of the system program, the last account of the transaction, over `keys`. -/
def systemTransaction (keys : List Pubkey) (accounts : List AccountSharedData)
    (instructionAccounts : List InstructionAccount) : TransactionContext :=
  ⟨keys ++ [systemProgramId], accounts ++ [⟨1, [], nativeLoaderId, true, 0⟩], 64, 64,
    [⟨0, 0, [keys.length], instructionAccounts, []⟩], 1, 0, some defaultRent, false⟩

/-- The nonce account first, signing and writable, then the destination, writable, then the
sysvars. -/
def withdrawTransaction (nonce destination : AccountSharedData) : TransactionContext :=
  systemTransaction [nonceKey, payerKey, recentBlockhashesId, rentId]
    [nonce, destination, systemAccount 1, systemAccount 1]
    [⟨0, 0, 0, true, true⟩, ⟨1, 1, 1, false, true⟩, ⟨2, 2, 2, false, false⟩, ⟨3, 3, 3, false, false⟩]

/-- The payer first, signing and writable, then the nonce account, writable. -/
def refillTransaction (payer nonce : AccountSharedData) : TransactionContext :=
  systemTransaction [payerKey, nonceKey] [payer, nonce] [⟨0, 0, 0, true, true⟩, ⟨1, 1, 1, false, true⟩]

/-- The nonce account, signing for itself as its authority, then the recent blockhashes. -/
def advanceTransaction (nonce : AccountSharedData) : TransactionContext :=
  systemTransaction [nonceKey, recentBlockhashesId] [nonce, systemAccount 1]
    [⟨0, 0, 0, true, true⟩, ⟨1, 1, 1, false, false⟩]

/-- A fresh nonce account pays 400 lamports out under its own signature, then is refilled with
100. -/
def refillSteps (j : ℕ) : NonceStep :=
  if j = 0 then
    .run prefixDroppingHash (nonceInvokeContext (hashOf 1)) (.withdrawNonceAccount 400)
      (withdrawTransaction (nonceAccount 1000 (.new .uninitialized)) (systemAccount 0)) 0
  else
    .run prefixDroppingHash (nonceInvokeContext (hashOf 2)) (.transfer 100)
      (refillTransaction (systemAccount 500) (nonceAccount 600 (.new .uninitialized))) 1

def refillStates (j : ℕ) : AccountSharedData :=
  nonceAccount (if j = 0 then 1000 else if j = 1 then 600 else 700) (.new .uninitialized)

theorem refillSteps_run : NonceRun prefixDroppingHash nonceKey defaultRent refillSteps refillStates 2 := by
  refine ⟨fun j hj => ?_, fun j hj => ?_⟩
  · obtain rfl | rfl : j = 0 ∨ j = 1 := by omega
    · exact NonceStep.run_runs rfl (by decide +kernel) (by decide +kernel) (by decide +kernel)
    · exact NonceStep.run_runs rfl (by decide +kernel) (by decide +kernel) (by decide +kernel)
  · obtain rfl | rfl : j = 0 ∨ j = 1 := by omega
    all_goals rfl

end PutValidator
