import PutValidator.Sdk.Primitives

/-! The program and sysvar ids that message writability reads: the ten keys of
`BUILTIN_PROGRAMS_KEYS` and the sysvar ids of `sysvar::ALL_IDS`, each the 32 bytes of the
base58 string of its `declare_id!`, and `is_builtin_key_or_sysvar` with its first-byte
lookup table (`sdk/program/src/message/legacy.rs`). -/
namespace PutValidator

/-- `system_program::id()`, `11111111111111111111111111111111`: all zero bytes. -/
def systemProgramId : Pubkey := ⟨Vector.replicate 32 0⟩

/-- `config_program::id()`, `Config1111111111111111111111111111111111111`. -/
def configProgramId : Pubkey := ⟨#v[3, 6, 74, 163, 0, 47, 116, 220, 200, 110, 67, 49, 15, 12, 5, 42, 248, 197, 218, 39,
    246, 16, 64, 25, 163, 35, 239, 160, 0, 0, 0, 0]⟩

/-- `feature::id()`, `Feature111111111111111111111111111111111111`. -/
def featureId : Pubkey := ⟨#v[3, 192, 160, 205, 203, 6, 210, 218, 239, 174, 130, 209, 111, 238, 122, 207, 97, 236,
    115, 123, 35, 72, 27, 33, 148, 106, 118, 112, 0, 0, 0, 0]⟩

/-- `native_loader::id()`, `NativeLoader1111111111111111111111111111111`. -/
def nativeLoaderId : Pubkey := ⟨#v[5, 135, 132, 191, 20, 139, 164, 40, 47, 176, 18, 87, 72, 136, 169, 241, 83, 160, 125,
    173, 247, 101, 192, 69, 92, 154, 151, 3, 128, 0, 0, 0]⟩

/-- `stake::program::id()`, `Stake11111111111111111111111111111111111111`. -/
def stakeProgramId : Pubkey := ⟨#v[6, 161, 216, 23, 145, 55, 84, 42, 152, 52, 55, 189, 254, 42, 122, 178, 85, 127, 83, 92,
    138, 120, 114, 43, 104, 164, 157, 192, 0, 0, 0, 0]⟩

/-- `stake::config::id()`, `StakeConfig11111111111111111111111111111111`. -/
def stakeConfigId : Pubkey := ⟨#v[6, 161, 216, 23, 165, 2, 5, 11, 104, 7, 145, 230, 206, 109, 184, 142, 30, 91, 113, 80,
    246, 31, 198, 121, 10, 78, 180, 209, 0, 0, 0, 0]⟩

/-- `vote::program::id()`, `Vote111111111111111111111111111111111111111`. -/
def voteProgramId : Pubkey := ⟨#v[7, 97, 72, 29, 53, 116, 116, 187, 124, 77, 118, 36, 235, 211, 189, 179, 216, 53, 94,
    115, 209, 16, 67, 252, 13, 163, 83, 128, 0, 0, 0, 0]⟩

/-- `bpf_loader::id()`, `BPFLoader2111111111111111111111111111111111`. -/
def bpfLoaderId : Pubkey := ⟨#v[2, 168, 246, 145, 78, 136, 161, 110, 57, 90, 225, 40, 148, 143, 250, 105, 86, 147, 55,
    104, 24, 221, 71, 67, 82, 33, 243, 198, 0, 0, 0, 0]⟩

/-- `bpf_loader_deprecated::id()`, `BPFLoader1111111111111111111111111111111111`. -/
def bpfLoaderDeprecatedId : Pubkey := ⟨#v[2, 168, 246, 145, 78, 136, 161, 107, 189, 35, 149, 133, 95, 100, 4, 217, 180, 244, 86,
    183, 130, 27, 176, 20, 87, 73, 66, 140, 0, 0, 0, 0]⟩

/-- `bpf_loader_upgradeable::id()`, `BPFLoaderUpgradeab1e11111111111111111111111`. -/
def bpfLoaderUpgradeableId : Pubkey := ⟨#v[2, 168, 246, 145, 78, 136, 161, 176, 226, 16, 21, 62, 247, 99, 174, 43, 0, 194, 185,
    61, 22, 193, 36, 210, 192, 83, 122, 16, 4, 128, 0, 0]⟩

/-- `sysvar::clock::id()`, `SysvarC1ock11111111111111111111111111111111`. -/
def clockId : Pubkey := ⟨#v[6, 167, 213, 23, 24, 199, 116, 201, 40, 86, 99, 152, 105, 29, 94, 182, 139, 94, 184,
    163, 155, 75, 109, 92, 115, 85, 91, 33, 0, 0, 0, 0]⟩

/-- `sysvar::epoch_schedule::id()`, `SysvarEpochSchedu1e111111111111111111111111`. -/
def epochScheduleId : Pubkey := ⟨#v[6, 167, 213, 23, 24, 220, 63, 238, 2, 211, 228, 127, 1, 0, 248, 176, 84, 247, 148, 46,
    96, 89, 30, 63, 80, 135, 25, 168, 5, 0, 0, 0]⟩

/-- `sysvar::fees::id()`, `SysvarFees111111111111111111111111111111111`. -/
def feesId : Pubkey := ⟨#v[6, 167, 213, 23, 24, 226, 90, 141, 131, 80, 60, 37, 26, 122, 240, 113, 38, 253, 114, 0,
    223, 111, 196, 237, 82, 106, 156, 144, 0, 0, 0, 0]⟩

/-- `sysvar::recent_blockhashes::id()`, `SysvarRecentB1ockHashes11111111111111111111`. -/
def recentBlockhashesId : Pubkey := ⟨#v[6, 167, 213, 23, 25, 44, 86, 142, 224, 138, 132, 95, 115, 210, 151, 136, 207, 3, 92,
    49, 69, 178, 26, 179, 68, 216, 6, 46, 169, 64, 0, 0]⟩

/-- `sysvar::rent::id()`, `SysvarRent111111111111111111111111111111111`. -/
def rentId : Pubkey := ⟨#v[6, 167, 213, 23, 25, 44, 92, 81, 33, 140, 201, 76, 61, 74, 241, 127, 88, 218, 238, 8,
    155, 161, 253, 68, 227, 219, 217, 138, 0, 0, 0, 0]⟩

/-- `sysvar::rewards::id()`, `SysvarRewards111111111111111111111111111111`. -/
def rewardsId : Pubkey := ⟨#v[6, 167, 213, 23, 25, 44, 97, 55, 206, 224, 146, 217, 182, 146, 62, 225, 204, 214, 25,
    3, 250, 130, 184, 161, 97, 145, 87, 141, 128, 0, 0, 0]⟩

/-- `sysvar::slot_hashes::id()`, `SysvarS1otHashes111111111111111111111111111`. -/
def slotHashesId : Pubkey := ⟨#v[6, 167, 213, 23, 25, 47, 10, 175, 198, 242, 101, 227, 251, 119, 204, 122, 218, 130,
    197, 41, 208, 190, 59, 19, 110, 45, 0, 85, 32, 0, 0, 0]⟩

/-- `sysvar::slot_history::id()`, `SysvarS1otHistory11111111111111111111111111`. -/
def slotHistoryId : Pubkey := ⟨#v[6, 167, 213, 23, 25, 47, 10, 175, 200, 117, 226, 225, 132, 87, 124, 80, 105, 207, 200,
    70, 73, 227, 235, 146, 120, 47, 149, 141, 72, 0, 0, 0]⟩

/-- `sysvar::stake_history::id()`, `SysvarStakeHistory1111111111111111111111111`. -/
def stakeHistoryId : Pubkey := ⟨#v[6, 167, 213, 23, 25, 53, 132, 208, 254, 237, 155, 179, 67, 29, 19, 32, 107, 229, 68,
    40, 27, 87, 184, 86, 108, 197, 55, 95, 244, 0, 0, 0]⟩

/-- `sysvar::instructions::id()`, `Sysvar1nstructions1111111111111111111111111`. -/
def instructionsId : Pubkey := ⟨#v[6, 167, 213, 23, 24, 123, 209, 102, 53, 218, 212, 4, 85, 253, 194, 192, 193, 36, 198,
    143, 33, 86, 117, 165, 219, 186, 203, 95, 8, 0, 0, 0]⟩

/-- `BUILTIN_PROGRAMS_KEYS`, in the order of the source. -/
def builtinProgramsKeys : List Pubkey :=
  [configProgramId, featureId, nativeLoaderId, stakeProgramId, stakeConfigId, voteProgramId,
    systemProgramId, bpfLoaderId, bpfLoaderDeprecatedId, bpfLoaderUpgradeableId]

/-- `sysvar::ALL_IDS`. -/
def allIds : List Pubkey :=
  [clockId, epochScheduleId, feesId, recentBlockhashesId, rentId, rewardsId, slotHashesId,
    slotHistoryId, stakeHistoryId, instructionsId]

def isSysvarId (id : Pubkey) : Bool := allIds.any (· == id)

/-- `MAYBE_BUILTIN_KEY_OR_SYSVAR[b]`: some builtin or sysvar key starts with the byte `b`. -/
def maybeBuiltinKeyOrSysvar (b : UInt8) : Bool :=
  (builtinProgramsKeys ++ allIds).any fun key => key.bytes[0] == b

def isBuiltinKeyOrSysvar (key : Pubkey) : Bool :=
  maybeBuiltinKeyOrSysvar key.bytes[0] && (isSysvarId key || builtinProgramsKeys.contains key)

/-- The lookup table only skips keys that are in neither list. -/
theorem isBuiltinKeyOrSysvar_iff (key : Pubkey) :
    isBuiltinKeyOrSysvar key = true ↔ key ∈ allIds ∨ key ∈ builtinProgramsKeys := by
  constructor
  · intro h
    simp only [isBuiltinKeyOrSysvar, Bool.and_eq_true, Bool.or_eq_true, isSysvarId,
      List.any_eq_true, beq_iff_eq, List.contains_iff_mem] at h
    obtain ⟨-, ⟨k, hk, rfl⟩ | hMem⟩ := h
    · exact Or.inl hk
    · exact Or.inr hMem
  · intro h
    have hMaybe : maybeBuiltinKeyOrSysvar key.bytes[0] = true :=
      List.any_eq_true.mpr ⟨key, by rcases h with h | h <;> simp [h], by simp⟩
    simp only [isBuiltinKeyOrSysvar, hMaybe, Bool.true_and, Bool.or_eq_true, isSysvarId,
      List.any_eq_true, beq_iff_eq, List.contains_iff_mem]
    rcases h with h | h
    · exact Or.inl ⟨key, h, rfl⟩
    · exact Or.inr h

end PutValidator
