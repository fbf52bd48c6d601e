import PutValidator.Sdk.VersionedTransaction

/-! Durable transaction nonces (`sdk/program/src/nonce/state/`): the state a nonce account
holds, its two versions, and the bincode layout in which the account's data stores it. A
durable nonce is the SHA-256 hash of a prefix and the blockhash it was taken from; the hash is a
parameter, as for program addresses, and what the proofs ask of it is that it does not collide
on blockhashes. -/
namespace PutValidator

open Lib.Codec

/-- `DurableNonce`, a hash in a domain apart from the blockhashes. -/
structure DurableNonce where
  hash : Hash
deriving DecidableEq, Repr

/-- `DURABLE_NONCE_HASH_PREFIX`. -/
def durableNonceHashPrefix : List UInt8 := "DURABLE_NONCE".toUTF8.toList

/-- `DurableNonce::from_blockhash`: the hash of the prefix followed by the blockhash. -/
def DurableNonce.fromBlockhash (sha256 : List UInt8 → Hash) (blockhash : Hash) : DurableNonce :=
  ⟨sha256 (durableNonceHashPrefix ++ blockhash.bytes.toList)⟩

namespace Nonce

/-- `nonce::state::Data`; its `FeeCalculator` holds only `lamports_per_signature`, a `u128`. -/
structure Data where
  authority : Pubkey
  durableNonce : DurableNonce
  lamportsPerSignature : Nat
deriving DecidableEq, Repr

/-- `Data::blockhash`: the value a transaction puts as its recent blockhash to use the nonce. -/
def Data.blockhash (data : Data) : Hash := data.durableNonce.hash

inductive State
  | uninitialized
  | initialized (data : Data)
deriving DecidableEq, Repr

/-- `Versions`. A legacy nonce was taken from the blockhash itself, in the blockhash domain. -/
inductive Versions
  | legacy (state : State)
  | current (state : State)
deriving DecidableEq, Repr

inductive AuthorizeNonceError
  | missingRequiredSignature (accountAuthority : Pubkey)
  | uninitialized
deriving DecidableEq, Repr

namespace Versions

def new (state : State) : Versions := .current state

def state : Versions → State
  | .legacy state => state
  | .current state => state

/-- `verify_recent_blockhash`: only a current, initialized nonce verifies, and only its own
durable nonce. -/
def verifyRecentBlockhash (versions : Versions) (recentBlockhash : Hash) : Option Data :=
  match versions with
  | .legacy _ => none
  | .current .uninitialized => none
  | .current (.initialized data) => if recentBlockhash = data.blockhash then some data else none

/-- `upgrade`: a legacy initialized nonce moves out of the blockhash domain. -/
def upgrade (sha256 : List UInt8 → Hash) : Versions → Option Versions
  | .legacy .uninitialized => none
  | .legacy (.initialized data) =>
      some (.current (.initialized
        { data with durableNonce := DurableNonce.fromBlockhash sha256 data.blockhash }))
  | .current _ => none

/-- `authorize`, which keeps the version: the durable nonce cannot change here. -/
def authorize (versions : Versions) (signers : List Pubkey) (authority : Pubkey) :
    Except AuthorizeNonceError Versions := do
  let data ← match versions.state with
    | .uninitialized => throw .uninitialized
    | .initialized data => pure data
  if data.authority ∉ signers then throw (.missingRequiredSignature data.authority)
  let data : Data := ⟨authority, data.durableNonce, data.lamportsPerSignature⟩
  pure (match versions with
    | .legacy _ => .legacy (.initialized data)
    | .current _ => .current (.initialized data))

@[simp] theorem state_new (state : State) : (new state).state = state := rfl

/-- A nonce verifies exactly the blockhash of a current, initialized state. -/
theorem verifyRecentBlockhash_isSome {versions : Versions} {recentBlockhash : Hash} :
    (versions.verifyRecentBlockhash recentBlockhash).isSome ↔
      ∃ data, versions = .current (.initialized data) ∧ recentBlockhash = data.blockhash := by
  rcases versions with _ | (_ | data) <;> simp [verifyRecentBlockhash]

theorem upgrade_eq_some {sha256 : List UInt8 → Hash} {versions upgraded : Versions} :
    versions.upgrade sha256 = some upgraded ↔ ∃ data, versions = .legacy (.initialized data) ∧
      upgraded = .current (.initialized
        { data with durableNonce := DurableNonce.fromBlockhash sha256 data.blockhash }) := by
  rcases versions with (_ | data) | _ <;> simp [upgrade, eq_comm]

/-- `authorize` that returned: the old authority signed, and only the authority changed. -/
theorem authorize_eq_ok {versions authorized : Versions} {signers : List Pubkey}
    {authority : Pubkey} (h : versions.authorize signers authority = .ok authorized) :
    ∃ data : Data, data.authority ∈ signers ∧
      (versions = .legacy (.initialized data) ∧ authorized =
          .legacy (.initialized ⟨authority, data.durableNonce, data.lamportsPerSignature⟩) ∨
        versions = .current (.initialized data) ∧ authorized =
          .current (.initialized ⟨authority, data.durableNonce, data.lamportsPerSignature⟩)) := by
  rcases versions with (_ | data) | (_ | data) <;>
    simp only [authorize, state, bind_pure_comp, pure_bind] at h
  · cases h
  · split at h
    · cases h
    · exact ⟨data, not_not.mp ‹_›, .inl ⟨rfl, (Except.ok.inj h).symm⟩⟩
  · cases h
  · split at h
    · cases h
    · exact ⟨data, not_not.mp ‹_›, .inr ⟨rfl, (Except.ok.inj h).symm⟩⟩

end Versions

/-- The fee calculator of an initialized state fits its `u128`, as in every state read from an
account. -/
def State.FeeFits : State → Prop
  | .uninitialized => True
  | .initialized data => data.lamportsPerSignature < 2 ^ 128

end Nonce

namespace Wire

def durableNonce : Codec DurableNonce :=
  map hash DurableNonce.mk DurableNonce.hash (fun _ => rfl) (fun _ => rfl)

/-- `Data`: the authority, the durable nonce and the fee calculator's `u128`. -/
def nonceData : Codec Nonce.Data :=
  map (pair pubkey (pair durableNonce (uintLE 16)))
    (fun fields => ⟨fields.1, fields.2.1, fields.2.2⟩)
    (fun data => (data.authority, data.durableNonce, data.lamportsPerSignature))
    (fun _ => rfl) (fun _ => rfl)

/-- `State`, a bincode enum: the `u32` index of the variant, then its fields. -/
def nonceState : Codec Nonce.State :=
  map (sum (uintLE 4) unit nonceData)
    (fun | .inl () => .uninitialized | .inr data => .initialized data)
    (fun | .uninitialized => .inl () | .initialized data => .inr data)
    (fun | .inl () => rfl | .inr _ => rfl) (fun | .uninitialized => rfl | .initialized _ => rfl)

/-- `Versions`, a bincode enum of the two boxed states. -/
def nonceVersions : Codec Nonce.Versions :=
  map (sum (uintLE 4) nonceState nonceState)
    (fun | .inl state => .legacy state | .inr state => .current state)
    (fun | .legacy state => .inl state | .current state => .inr state)
    (fun | .inl _ => rfl | .inr _ => rfl) (fun | .legacy _ => rfl | .current _ => rfl)

/-- The versions the layout writes and reads back are those whose fee calculator fits. -/
theorem nonceVersions_canonical {versions : Nonce.Versions} :
    nonceVersions.Canonical versions ↔ versions.state.FeeFits := by
  rcases versions with (_ | data) | (_ | data) <;>
    simp [nonceVersions, nonceState, nonceData, durableNonce, pubkey, hash, map, sum, pair, uintLE,
      unit, fixed, Nonce.Versions.state, Nonce.State.FeeFits]

end Wire

end PutValidator
