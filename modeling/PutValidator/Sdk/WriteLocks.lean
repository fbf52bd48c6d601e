import PutValidator.Sdk.Message

/-! The three write-lock predicates of a message: `Message::is_writable` of the legacy format,
`is_maybe_writable` of a version-0 message before its lookups are loaded, and `is_writable` of
the `LoadedMessage` after. Each is a writable region of the header less two demotions, of the
reserved keys and of the programs; they differ in the arithmetic of the regions, in the keys
whose reservation they can see, and in the keys among which they look for the upgradeable
loader. -/
namespace PutValidator

/-! ### The loaded message's predicate -/

namespace LoadedMessage

/-- The loaded message's regions are the message's, once the lookups loaded as many writable
keys as they index. -/
theorem isWritableIndex_mk {m : V0.Message} {loaded : V0.LoadedAddresses}
    (hWritable : loaded.writable.length =
      (m.addressTableLookups.map fun lookup => lookup.writableIndexes.length).sum) (i : Nat) :
    (LoadedMessage.mk m loaded).isWritableIndex i = m.isWritableIndex i := by
  simp [isWritableIndex, V0.Message.isWritableIndex, hWritable]

/-- The loaded message looks for the upgradeable loader among the static keys and the loaded
ones. -/
theorem isUpgradeableLoaderPresent_mk (m : V0.Message) (loaded : V0.LoadedAddresses) :
    (LoadedMessage.mk m loaded).isUpgradeableLoaderPresent = true ↔
      bpfLoaderUpgradeableId ∈ m.accountKeys ∨
        bpfLoaderUpgradeableId ∈ loaded.writable ++ loaded.readonly := by
  simp [isUpgradeableLoaderPresent, accountKeys, AccountKeys.iter_mk_some]

/-- A key is write-locked by a loaded message exactly when it is in a writable region, neither
reserved nor a demoted program; past the keys, the cache has no entry. -/
theorem isWritable_eq_true {m : LoadedMessage} {i : Nat} :
    m.isWritable i = true ↔ ∃ key, m.accountKeys.get i = some key ∧
      m.isWritableIndex i = true ∧ isBuiltinKeyOrSysvar key = false ∧
      m.demoteProgramId i = false := by
  rw [AccountKeys.get_eq_getElem?_iter]
  by_cases hi : i < m.accountKeys.iter.length
  · rw [isWritable_of_lt hi, isWritableInternal, AccountKeys.get_eq_getElem?_iter,
      List.getElem?_eq_getElem hi]
    cases hIndex : m.isWritableIndex i <;> simp
  · have hCache : m.isWritable i = false := by
      rw [isWritable, List.getD_eq_getElem?_getD, List.getElem?_eq_none (by
        simpa [isWritableAccountCache] using hi)]
      rfl
    simp [hCache, List.getElem?_eq_none (Nat.le_of_not_lt hi)]

end LoadedMessage

/-! ### Before and after the lookups are loaded -/

/-- `is_maybe_writable` over-approximates the loaded message's write locks when the
upgradeable loader is loaded only where it is also a static key: the regions agree once the
lookups load the keys they index, a reserved static key is demoted by both, and a program the
loaded message does not demote sees the loader among the static keys. -/
theorem LoadedMessage.isWritable_mk_imp_isMaybeWritable {m : V0.Message}
    {loaded : V0.LoadedAddresses}
    (hWritable : loaded.writable.length =
      (m.addressTableLookups.map fun lookup => lookup.writableIndexes.length).sum)
    (hLoader : bpfLoaderUpgradeableId ∈ loaded.writable ++ loaded.readonly →
      bpfLoaderUpgradeableId ∈ m.accountKeys)
    {i : Nat} (h : (LoadedMessage.mk m loaded).isWritable i = true) :
    m.isMaybeWritable i = true := by
  obtain ⟨key, hGet, hIndex, hReserved, hDemote⟩ := isWritable_eq_true.mp h
  have hStatic : ∀ staticKey, m.accountKeys[i]? = some staticKey → staticKey = key := by
    intro staticKey hStaticKey
    rw [AccountKeys.get_eq_getElem?_iter, accountKeys, AccountKeys.iter_mk_some,
      List.append_assoc, List.getElem?_append_left (List.getElem?_eq_some_iff.mp hStaticKey).1,
      hStaticKey] at hGet
    exact Option.some.inj hGet
  -- a program the loaded message keeps writable sees the loader, so among the static keys
  have hProgram : m.isKeyCalledAsProgram i = true → m.isUpgradeableLoaderInStaticKeys = true := by
    intro hCalled
    have hPresent : (LoadedMessage.mk m loaded).isUpgradeableLoaderPresent = true := by
      simp only [demoteProgramId, isKeyCalledAsProgram] at hDemote
      simp only [V0.Message.isKeyCalledAsProgram] at hCalled
      simpa [hCalled] using hDemote
    have hMem : bpfLoaderUpgradeableId ∈ m.accountKeys :=
      ((isUpgradeableLoaderPresent_mk m loaded).mp hPresent).elim id hLoader
    simpa [V0.Message.isUpgradeableLoaderInStaticKeys] using hMem
  rw [V0.Message.isMaybeWritable, ← isWritableIndex_mk hWritable, hIndex, Bool.true_and]
  refine Bool.and_eq_true_iff.mpr ⟨?_, ?_⟩
  · cases hKey : m.accountKeys[i]? with
    | none => rfl
    | some staticKey => simp [hStatic staticKey hKey, hReserved]
  · cases hCalled : m.isKeyCalledAsProgram i with
    | false => rfl
    | true => simp [hProgram hCalled]

/-! ### The legacy predicate -/

namespace Legacy.Message

/-- The version-0 message of a legacy message's header, keys and instructions, with no
lookups. -/
def withNoLookups (l : Message) : V0.Message :=
  ⟨l.header, l.accountKeys, l.recentBlockhash, l.instructions, []⟩

/-- On a sanitized legacy message, the `u8` region of `is_writable` is the version-0 one: the
readonly signers are fewer than the signers and the unsigned region fits the keys. -/
theorem isWritable_eq_of_sanitize {l : Message} (hSanitize : l.sanitize = .ok ()) {i : Nat}
    (hi : i < l.accountKeys.length) :
    l.isWritable i hi = (l.withNoLookups.isWritableIndex i &&
      !isBuiltinKeyOrSysvar l.accountKeys[i] && !l.demoteProgramId i) := by
  obtain ⟨hHeader, hReadonly, -⟩ := sanitize_eq_ok hSanitize
  have hRegion := V0.Message.isWritableIndex_of_lt (m := l.withNoLookups) hi hHeader
  have hSub : (l.header.numRequiredSignatures - l.header.numReadonlySignedAccounts).toNat =
      l.header.numRequiredSignatures.toNat - l.header.numReadonlySignedAccounts.toNat :=
    UInt8.toNat_sub_of_le _ _ (UInt8.le_iff_toNat_le.mpr (Nat.le_of_lt hReadonly))
  rw [isWritable]
  congr 2
  rw [Bool.eq_iff_iff, hRegion]
  simp [hSub, withNoLookups]

/-- On a sanitized legacy message, `is_writable` is `is_maybe_writable` of the same message
with no lookups. -/
theorem isWritable_eq_isMaybeWritable {l : Message} (hSanitize : l.sanitize = .ok ())
    {i : Nat} (hi : i < l.accountKeys.length) :
    l.isWritable i hi = l.withNoLookups.isMaybeWritable i := by
  rw [isWritable_eq_of_sanitize hSanitize hi, V0.Message.isMaybeWritable]
  simp [withNoLookups, List.getElem?_eq_getElem hi, demoteProgramId, isKeyCalledAsProgram,
    V0.Message.isKeyCalledAsProgram, isUpgradeableLoaderPresent,
    V0.Message.isUpgradeableLoaderInStaticKeys]

/-- On a sanitized legacy message, `is_writable` is the loaded message's of the same message
with no lookups and nothing loaded. -/
theorem isWritable_eq_loaded {l : Message} (hSanitize : l.sanitize = .ok ()) {i : Nat}
    (hi : i < l.accountKeys.length) :
    l.isWritable i hi = (LoadedMessage.mk l.withNoLookups ⟨[], []⟩).isWritable i := by
  have hLength : i < (LoadedMessage.mk l.withNoLookups ⟨[], []⟩).accountKeys.iter.length := by
    simpa [LoadedMessage.accountKeys, withNoLookups] using hi
  rw [isWritable_eq_of_sanitize hSanitize hi, LoadedMessage.isWritable_of_lt hLength,
    LoadedMessage.isWritableInternal, LoadedMessage.isWritableIndex_mk rfl,
    AccountKeys.get_eq_getElem?_iter]
  simp [LoadedMessage.accountKeys, withNoLookups, List.getElem?_eq_getElem hi, demoteProgramId,
    isKeyCalledAsProgram, LoadedMessage.demoteProgramId, LoadedMessage.isKeyCalledAsProgram,
    isUpgradeableLoaderPresent, LoadedMessage.isUpgradeableLoaderPresent, Bool.and_assoc]

end Legacy.Message

/-! ### The three predicates -/

/-- The write-lock predicates agree: `is_maybe_writable` over-approximates the loaded message's
write locks where the upgradeable loader is loaded only if it is also a static key, and on a
sanitized legacy message `is_writable` is both version-0 predicates of the same message with
no lookups. -/
theorem write_lock_predicates_agree :
    (∀ (m : V0.Message) (loaded : V0.LoadedAddresses),
      loaded.writable.length =
          (m.addressTableLookups.map fun lookup => lookup.writableIndexes.length).sum →
      (bpfLoaderUpgradeableId ∈ loaded.writable ++ loaded.readonly →
        bpfLoaderUpgradeableId ∈ m.accountKeys) →
      ∀ i, (LoadedMessage.mk m loaded).isWritable i = true → m.isMaybeWritable i = true) ∧
    (∀ l : Legacy.Message, l.sanitize = .ok () → ∀ i (hi : i < l.accountKeys.length),
      l.isWritable i hi = l.withNoLookups.isMaybeWritable i ∧
        l.isWritable i hi = (LoadedMessage.mk l.withNoLookups ⟨[], []⟩).isWritable i) :=
  ⟨fun _ _ hWritable hLoader _ h => LoadedMessage.isWritable_mk_imp_isMaybeWritable hWritable hLoader h,
    fun _ hSanitize _ hi => ⟨Legacy.Message.isWritable_eq_isMaybeWritable hSanitize hi,
      Legacy.Message.isWritable_eq_loaded hSanitize hi⟩⟩

/-- A version-0 message of a payer and a writable unsigned key that its one instruction runs,
with one lookup of one writable key. -/
def calledProgramMessage : V0.Message :=
  ⟨⟨1, 0, 0⟩, [⟨Vector.replicate 32 9⟩, ⟨Vector.replicate 32 7⟩], Hash.default, [⟨1, [], []⟩],
    [⟨⟨Vector.replicate 32 5⟩, [0], []⟩]⟩

/-- A sanitized legacy message of a payer and a readonly program its one instruction runs. -/
def readonlyProgramMessage : Legacy.Message :=
  ⟨⟨1, 0, 1⟩, [⟨Vector.replicate 32 9⟩, ⟨Vector.replicate 32 7⟩], Hash.default, [⟨1, [0], []⟩]⟩

theorem write_lock_predicates_agree_calledProgram :
    calledProgramMessage.isMaybeWritable 2 = true ∧
      readonlyProgramMessage.isWritable 1 (by decide) =
        readonlyProgramMessage.withNoLookups.isMaybeWritable 1 := by
  have hLoaded : (LoadedMessage.mk calledProgramMessage
      ⟨[⟨Vector.replicate 32 4⟩], []⟩).isWritable 2 = true := by
    decide +kernel
  exact ⟨write_lock_predicates_agree.1 _ _ rfl (by decide) 2 hLoaded,
    (write_lock_predicates_agree.2 _ (by decide +kernel) 1 (by decide)).1⟩

/-- With the upgradeable loader loaded from a table and not a static key, the loaded message
keeps a writable program writable that `is_maybe_writable` demotes: the pre-load check misses a
write lock the runtime takes. -/
theorem isMaybeWritable_misses_program_with_loaded_loader :
    calledProgramMessage.sanitize true = .ok () ∧
      [bpfLoaderUpgradeableId].length = (calledProgramMessage.addressTableLookups.map
        fun lookup => lookup.writableIndexes.length).sum ∧
      ([] : List Pubkey).length = (calledProgramMessage.addressTableLookups.map
        fun lookup => lookup.readonlyIndexes.length).sum ∧
      (LoadedMessage.mk calledProgramMessage ⟨[bpfLoaderUpgradeableId], []⟩).isWritable 1 = true ∧
      calledProgramMessage.isMaybeWritable 1 = false := by
  decide +kernel

end PutValidator
