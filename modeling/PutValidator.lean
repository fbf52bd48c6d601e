import PutValidator.AddressLookupTable.Processor
import PutValidator.ConfigProgram.Processor
import PutValidator.Consensus.AdjustLockouts
import PutValidator.Consensus.Commitment
import PutValidator.Consensus.ForkChoice
import PutValidator.Consensus.LockoutSafety
import PutValidator.Entry.Entry
import PutValidator.Gossip.DuplicateShred
import PutValidator.Ledger.MerkleShred
import PutValidator.LoaderV4.StateMachine
import PutValidator.ProgramRuntime.ComputeBudget
import PutValidator.ProgramRuntime.InvokeStack
import PutValidator.ProgramRuntime.Privileges
import PutValidator.Runtime.AccountsHashRoot
import PutValidator.Runtime.BlockhashQueue
import PutValidator.Runtime.CostTracker
import PutValidator.Runtime.LockSafety
import PutValidator.Runtime.RollingBitFieldRefinement
import PutValidator.Sdk.CompiledKeys
import PutValidator.Sdk.FeeCalculator
import PutValidator.Sdk.SanitizedMessage
import PutValidator.Sdk.WriteLocks
import PutValidator.SystemProgram.NonceSafety
import PutValidator.Vote.AuthorizedVoters
import PutValidator.Vote.CompactUpdate
import PutValidator.Vote.EpochCredits
import PutValidator.Vote.Refinement
import PutValidator.Vote.UpdateCheck
