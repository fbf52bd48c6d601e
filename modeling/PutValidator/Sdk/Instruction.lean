import PutValidator.Sdk.Primitives
import PutValidator.Lib.Except

/-! The instruction a program hands to an invocation (`AccountMeta` of
`sdk/program/src/instruction.rs`, `StableInstruction` of
`sdk/program/src/stable_layout/stable_instruction.rs`) and program derived addresses
(`Pubkey::create_program_address` of `sdk/program/src/pubkey.rs`). A program derived address is
the SHA-256 hash of the seeds, the program id and a marker, refused when the hash is a point of
the ed25519 curve; the hash and the curve test are parameters. -/
namespace PutValidator

open Lib.Except

structure AccountMeta where
  pubkey : Pubkey
  isSigner : Bool
  isWritable : Bool
deriving DecidableEq, Repr

structure StableInstruction where
  accounts : List AccountMeta
  data : List UInt8
  programId : Pubkey
deriving DecidableEq, Repr

inductive PubkeyError
  | maxSeedLengthExceeded
  | invalidSeeds
  | illegalOwner
deriving DecidableEq, Repr

/-- `MAX_SEED_LEN`. -/
def maxSeedLen : Nat := 32

/-- `MAX_SEEDS`. -/
def maxSeeds : Nat := 16

/-- `PDA_MARKER`. -/
def pdaMarker : List UInt8 := "ProgramDerivedAddress".toUTF8.toList

section

variable (sha256 : List UInt8 → Hash) (bytesAreCurvePoint : Hash → Bool)

/-- `Pubkey::create_program_address`. -/
def createProgramAddress (seeds : List (List UInt8)) (programId : Pubkey) :
    Except PubkeyError Pubkey := do
  failIf (maxSeeds < seeds.length) .maxSeedLengthExceeded
  seeds.forM fun seed => failIf (maxSeedLen < seed.length) .maxSeedLengthExceeded
  let hash := sha256 (seeds.flatten ++ programId.bytes.toList ++ pdaMarker)
  failIf (bytesAreCurvePoint hash = true) .invalidSeeds
  pure ⟨hash.bytes⟩

end

end PutValidator
