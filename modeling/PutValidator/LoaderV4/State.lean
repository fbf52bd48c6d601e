import PutValidator.Sdk.TransactionContext
import PutValidator.Lib.Codec
import PutValidator.Lib.List

/-! The state of a loader-v4 program account (`sdk/program/src/loader_v4.rs`). The data of the
account starts with a `LoaderV4State` in its `repr(C)` layout, which `get_state` and
`get_state_mut` (`programs/loader-v4/src/lib.rs`) read and write in place through a
`transmute`; the program's bytes follow from `program_data_offset()` on. A handler assigns one
field at a time, so the model writes the bytes of one field at a time. The lemmas say what each
field write leaves of the state read back, and that no field write reaches the program's
bytes. -/
namespace PutValidator.LoaderV4

open Lib.Except Lib.Codec Lib.List

/-- `loader_v4::id()`, `LoaderV411111111111111111111111111111111111`. -/
def loaderV4Id : Pubkey := ⟨#v[5, 18, 180, 17, 81, 81, 227, 122, 173, 10, 139, 197, 211, 136, 46, 123,
  127, 218, 76, 243, 210, 192, 40, 200, 207, 131, 54, 24, 0, 0, 0, 0]⟩

/-- `DEPLOYMENT_COOLDOWN_IN_SLOTS`. -/
def deploymentCooldownInSlots : Nat := 750

/-- `LoaderV4State`: the slot the program was last initialised, deployed or retracted in,
whether it is deployed, and its authority, `None` once it is finalized. -/
structure LoaderV4State where
  slot : Nat
  isDeployed : Bool
  authorityAddress : Option Pubkey
deriving DecidableEq, Repr

/-- `LoaderV4State::program_data_offset()`, `size_of::<LoaderV4State>()` under `repr(C)`: the
`u64` slot in bytes `0..8`, the `bool` at `8`, the `Option<Pubkey>` in `9..42` (its tag, then the
key), and padding up to the alignment of the `u64`. -/
def programDataOffset : Nat := 48

/-- A `bool`, or the tag of an `Option`, in memory: `0` or `1`; any other byte makes the
reference `transmute` builds undefined behaviour, read here as no value. -/
def boolOfByte (byte : UInt8) : Option Bool :=
  if byte = 0 then some false else if byte = 1 then some true else none

/-- The slot, little endian in the first eight bytes. -/
def readSlot (data : List UInt8) : Nat := ((decodeLE 8 (data.take 8)).map (·.1)).getD 0

/-- The key of `authority_address`, in bytes `10..42`. -/
def readKey (data : List UInt8) : Pubkey := ⟨Vector.ofFn fun i => data.getD (10 + i) 0⟩

/-- The header read in place. -/
def readState (data : List UInt8) : Option LoaderV4State := do
  let isDeployed ← data[8]?.bind boolOfByte
  let isSome ← data[9]?.bind boolOfByte
  pure ⟨readSlot data, isDeployed, if isSome then some (readKey data) else none⟩

/-- `get_state`: `AccountDataTooSmall` below the header's size; a header whose `bool` or tag is
not `0` or `1`, undefined in the source, is refused as `InvalidAccountData`. -/
def getState (data : List UInt8) : Except InstructionError LoaderV4State := do
  failIf (data.length < programDataOffset) .accountDataTooSmall
  okOr (readState data) .invalidAccountData

/-! ### Assignments to the fields through `get_state_mut` -/

def writeSlot (slot : Nat) (data : List UInt8) : List UInt8 := overwrite 0 (encodeLE 8 slot) data

def writeIsDeployed (isDeployed : Bool) (data : List UInt8) : List UInt8 :=
  overwrite 8 [if isDeployed then 1 else 0] data

/-- `Some` writes the tag and the key; `None` writes the tag, and the key's bytes are no longer
read. -/
def writeAuthorityAddress : Option Pubkey → List UInt8 → List UInt8
  | none, data => overwrite 9 [0] data
  | some key, data => overwrite 9 (1 :: key.bytes.toList) data

/-- The header the initialising `Write` leaves: the clock's slot, not deployed, and the signer of
instruction account 1 as the authority. -/
def initializeState (slot : Nat) (authorityAddress : Pubkey) (data : List UInt8) : List UInt8 :=
  writeAuthorityAddress (some authorityAddress) (writeIsDeployed false (writeSlot slot data))

/-- `Vec::resize(n, 0)`, what `set_data_length` does to the data. -/
def resized (n : Nat) (data : List UInt8) : List UInt8 :=
  data.take n ++ List.replicate (n - data.length) 0

/-! ### What the field writes leave -/

section Fields

variable {data : List UInt8}

@[simp] theorem boolOfByte_eq_some {byte : UInt8} {b : Bool} :
    boolOfByte byte = some b ↔ byte = if b then 1 else 0 := by
  unfold boolOfByte
  cases b <;> split_ifs <;> simp_all

theorem boolOfByte_encode (b : Bool) : boolOfByte (if b then 1 else 0) = some b :=
  boolOfByte_eq_some.mpr rfl

/-- Every field write lies within the header, so it keeps the data's length and its bytes from
the program data offset on. -/
@[simp] theorem resized_zero (data : List UInt8) : resized 0 data = [] := by
  simp [resized]

theorem length_resized (n : Nat) (data : List UInt8) : (resized n data).length = n := by
  simp only [resized, List.length_append, List.length_take, List.length_replicate]
  omega

theorem length_writeSlot (h : programDataOffset ≤ data.length) (slot : Nat) :
    (writeSlot slot data).length = data.length :=
  length_overwrite (by simp [programDataOffset] at h ⊢; omega)

theorem length_writeIsDeployed (h : programDataOffset ≤ data.length) (isDeployed : Bool) :
    (writeIsDeployed isDeployed data).length = data.length :=
  length_overwrite (by simp [programDataOffset] at h ⊢; omega)

theorem length_writeAuthorityAddress (h : programDataOffset ≤ data.length)
    (authorityAddress : Option Pubkey) :
    (writeAuthorityAddress authorityAddress data).length = data.length := by
  cases authorityAddress <;>
    exact length_overwrite (by simp [programDataOffset] at h ⊢; omega)

theorem length_initializeState (h : programDataOffset ≤ data.length) (slot : Nat)
    (authorityAddress : Pubkey) :
    (initializeState slot authorityAddress data).length = data.length := by
  have h₁ := length_writeSlot h slot
  have h₂ := length_writeIsDeployed (h₁ ▸ h) false
  rw [initializeState, length_writeAuthorityAddress (h₂ ▸ h₁ ▸ h), h₂, h₁]

theorem drop_writeSlot (slot : Nat) :
    (writeSlot slot data).drop programDataOffset = data.drop programDataOffset :=
  drop_overwrite (Nat.zero_le _) (by simp [programDataOffset])

theorem drop_writeIsDeployed (h : programDataOffset ≤ data.length) (isDeployed : Bool) :
    (writeIsDeployed isDeployed data).drop programDataOffset = data.drop programDataOffset :=
  drop_overwrite (by simp [programDataOffset] at h ⊢; omega) (by simp [programDataOffset])

theorem drop_writeAuthorityAddress (h : programDataOffset ≤ data.length)
    (authorityAddress : Option Pubkey) :
    (writeAuthorityAddress authorityAddress data).drop programDataOffset =
      data.drop programDataOffset := by
  cases authorityAddress <;>
    exact drop_overwrite (by simp [programDataOffset] at h ⊢; omega)
      (by simp [programDataOffset])

/-! The state read back reads the slot from the first eight bytes, two bytes at `8` and `9`, and
the key from `10` on; each write changes its own and no other. -/

/-- What it takes for the header to read as a state. -/
theorem readState_eq_some {st : LoaderV4State} :
    readState data = some st ↔ ∃ isSome, data[8]?.bind boolOfByte = some st.isDeployed ∧
      data[9]?.bind boolOfByte = some isSome ∧ st.slot = readSlot data ∧
      st.authorityAddress = if isSome then some (readKey data) else none := by
  cases st
  unfold readState
  cases data[8]?.bind boolOfByte <;> cases data[9]?.bind boolOfByte <;>
    simp [eq_comm, and_left_comm]

theorem readKey_congr {data' : List UInt8} (h : ∀ i, 10 ≤ i → data'[i]? = data[i]?) :
    readKey data' = readKey data := by
  simp only [readKey, List.getD_eq_getElem?_getD, h _ (Nat.le_add_right 10 _)]

theorem readSlot_writeSlot {slot : Nat} (hSlot : slot < 2 ^ 64) :
    readSlot (writeSlot slot data) = slot := by
  have hTake : (writeSlot slot data).take 8 = encodeLE 8 slot ++ [] := by
    simp [writeSlot, overwrite]
  rw [readSlot, hTake, decodeLE_encodeLE [] 8 slot (by simpa using hSlot)]
  rfl

theorem getElem?_writeSlot {i : Nat} (hi : 8 ≤ i) (slot : Nat) :
    (writeSlot slot data)[i]? = data[i]? :=
  getElem?_overwrite_of_le (Nat.zero_le _) (by simpa using hi)

theorem readSlot_writeIsDeployed (h : 8 ≤ data.length) (isDeployed : Bool) :
    readSlot (writeIsDeployed isDeployed data) = readSlot data := by
  rw [readSlot, writeIsDeployed, take_overwrite h (Nat.le_refl 8), readSlot]

theorem getElem?_writeIsDeployed_self (h : 8 < data.length) (isDeployed : Bool) :
    (writeIsDeployed isDeployed data)[8]? = some (if isDeployed then 1 else 0) :=
  getElem?_overwrite_of_mem (Nat.le_of_lt h) (Nat.le_refl 8) (by simp)

theorem getElem?_writeIsDeployed {i : Nat} (h : 8 ≤ data.length) (hi : 9 ≤ i)
    (isDeployed : Bool) : (writeIsDeployed isDeployed data)[i]? = data[i]? :=
  getElem?_overwrite_of_le h (by simpa using hi)

theorem readSlot_writeAuthorityAddress (h : 9 ≤ data.length) (authorityAddress : Option Pubkey) :
    readSlot (writeAuthorityAddress authorityAddress data) = readSlot data := by
  cases authorityAddress <;>
    rw [readSlot, writeAuthorityAddress, take_overwrite h (by decide), readSlot]

theorem getElem?_eight_writeAuthorityAddress (h : 9 ≤ data.length)
    (authorityAddress : Option Pubkey) :
    (writeAuthorityAddress authorityAddress data)[8]? = data[8]? := by
  cases authorityAddress <;> exact getElem?_overwrite_of_lt h (by decide)

theorem getElem?_nine_writeAuthorityAddress (h : 9 < data.length)
    (authorityAddress : Option Pubkey) :
    (writeAuthorityAddress authorityAddress data)[9]? =
      some (if authorityAddress.isSome then 1 else 0) := by
  cases authorityAddress <;>
    exact getElem?_overwrite_of_mem (Nat.le_of_lt h) (Nat.le_refl 9) (by simp)

theorem readKey_writeAuthorityAddress (h : 9 ≤ data.length) (key : Pubkey) :
    readKey (writeAuthorityAddress (some key) data) = key := by
  have hAt : ∀ i (hi : i < 32),
      (writeAuthorityAddress (some key) data)[10 + i]? = some key.bytes[i] := by
    intro i hi
    show (overwrite 9 (1 :: key.bytes.toList) data)[10 + i]? = _
    rw [getElem?_overwrite_of_mem h (by omega) (by simp; omega),
      show 10 + i - 9 = i + 1 by omega]
    simp [hi]
  cases key
  simp only [readKey, List.getD_eq_getElem?_getD, Pubkey.mk.injEq]
  exact Vector.ext fun i hi => by simp [hAt i hi]

/-- The slot write leaves the rest of the state as it was read. -/
theorem readState_writeSlot {slot : Nat} (hSlot : slot < 2 ^ 64) {st : LoaderV4State}
    (hState : readState data = some st) :
    readState (writeSlot slot data) = some { st with slot } := by
  obtain ⟨isSome, hDeployed, hTag, -, hAuthority⟩ := readState_eq_some.mp hState
  have hKey : readKey (writeSlot slot data) = readKey data :=
    readKey_congr fun i hi => getElem?_writeSlot (by omega) slot
  refine readState_eq_some.mpr ⟨isSome, ?_, ?_, (readSlot_writeSlot hSlot).symm, ?_⟩
  · rwa [getElem?_writeSlot (Nat.le_refl 8)]
  · rwa [getElem?_writeSlot (show 8 ≤ 9 by decide)]
  · rw [hKey]
    exact hAuthority

theorem readState_writeIsDeployed (h : programDataOffset ≤ data.length) {st : LoaderV4State}
    (hState : readState data = some st) (isDeployed : Bool) :
    readState (writeIsDeployed isDeployed data) = some { st with isDeployed } := by
  have h8 : 8 < data.length := by simp [programDataOffset] at h; omega
  obtain ⟨isSome, -, hTag, hSlot, hAuthority⟩ := readState_eq_some.mp hState
  have hKey : readKey (writeIsDeployed isDeployed data) = readKey data :=
    readKey_congr fun i hi => getElem?_writeIsDeployed (Nat.le_of_lt h8) (by omega) isDeployed
  refine readState_eq_some.mpr ⟨isSome, ?_, ?_, ?_, ?_⟩
  · simp [getElem?_writeIsDeployed_self h8, boolOfByte_encode]
  · rwa [getElem?_writeIsDeployed (Nat.le_of_lt h8) (Nat.le_refl 9)]
  · rw [readSlot_writeIsDeployed (Nat.le_of_lt h8)]
    exact hSlot
  · rw [hKey]
    exact hAuthority

theorem readState_writeAuthorityAddress (h : programDataOffset ≤ data.length)
    {st : LoaderV4State} (hState : readState data = some st) (authorityAddress : Option Pubkey) :
    readState (writeAuthorityAddress authorityAddress data) = some { st with authorityAddress } := by
  have h9 : 9 < data.length := by simp [programDataOffset] at h; omega
  obtain ⟨-, hDeployed, -, hSlot, -⟩ := readState_eq_some.mp hState
  refine readState_eq_some.mpr ⟨authorityAddress.isSome, ?_, ?_, ?_, ?_⟩
  · rwa [getElem?_eight_writeAuthorityAddress (Nat.le_of_lt h9)]
  · simp [getElem?_nine_writeAuthorityAddress h9, boolOfByte_encode]
  · rw [readSlot_writeAuthorityAddress (Nat.le_of_lt h9)]
    exact hSlot
  · cases authorityAddress with
    | none => rfl
    | some key => simp [readKey_writeAuthorityAddress (Nat.le_of_lt h9)]

/-- The initialising write sets every field, whatever the header held. -/
theorem readState_initializeState (h : programDataOffset ≤ data.length) {slot : Nat}
    (hSlot : slot < 2 ^ 64) (authorityAddress : Pubkey) :
    readState (initializeState slot authorityAddress data) =
      some ⟨slot, false, some authorityAddress⟩ := by
  have h₁ : 8 < (writeSlot slot data).length := by
    rw [length_writeSlot h]; simp [programDataOffset] at h; omega
  have h₂ : 9 < (writeIsDeployed false (writeSlot slot data)).length := by
    rw [length_writeIsDeployed (by rw [length_writeSlot h]; exact h), length_writeSlot h]
    simp [programDataOffset] at h; omega
  refine readState_eq_some.mpr ⟨true, ?_, ?_, ?_, ?_⟩
  · simp [initializeState, getElem?_eight_writeAuthorityAddress (Nat.le_of_lt h₂),
      getElem?_writeIsDeployed_self h₁]
  · simp [initializeState, getElem?_nine_writeAuthorityAddress h₂]
  · rw [initializeState, readSlot_writeAuthorityAddress (Nat.le_of_lt h₂),
      readSlot_writeIsDeployed (Nat.le_of_lt h₁), readSlot_writeSlot hSlot]
  · simp [initializeState, readKey_writeAuthorityAddress (Nat.le_of_lt h₂)]

/-- `get_state` reads what a field write leaves, on data that holds a state. -/
theorem getState_of_readState (h : programDataOffset ≤ data.length) {st : LoaderV4State}
    (hState : readState data = some st) : getState data = .ok st := by
  simp [getState, failIf_of_not _ (Nat.not_lt.mpr h), hState, okOr]

/-- The initialising write leaves a state `get_state` reads. -/
theorem getState_initializeState (h : programDataOffset ≤ data.length) {slot : Nat}
    (hSlot : slot < 2 ^ 64) (authorityAddress : Pubkey) :
    getState (initializeState slot authorityAddress data) =
      .ok ⟨slot, false, some authorityAddress⟩ :=
  getState_of_readState (by rw [length_initializeState h]; exact h)
    (readState_initializeState h hSlot authorityAddress)

theorem getState_eq_ok {st : LoaderV4State} (h : getState data = .ok st) :
    programDataOffset ≤ data.length ∧ readState data = some st := by
  simp only [getState, bind_eq_ok, failIf_eq_ok, okOr_eq_ok] at h
  obtain ⟨-, hLength, hState⟩ := h
  exact ⟨Nat.le_of_not_lt hLength, hState⟩

/-! The state is read from the header alone, so writes past it, and a resize that keeps it,
leave the state. -/

theorem readState_congr {data' : List UInt8}
    (h : data'.take programDataOffset = data.take programDataOffset) :
    readState data' = readState data := by
  have hAt : ∀ i, i < programDataOffset → data'[i]? = data[i]? := by
    intro i hi
    rw [← List.getElem?_take_of_lt hi, h, List.getElem?_take_of_lt hi]
  have hSlot : readSlot data' = readSlot data := by
    have hTake : data'.take 8 = data.take 8 := by
      have hPrefix : ∀ l : List UInt8, (l.take programDataOffset).take 8 = l.take 8 := by
        simp [List.take_take, programDataOffset]
      rw [← hPrefix data', h, hPrefix]
    rw [readSlot, hTake, readSlot]
  have hKey : readKey data' = readKey data := by
    simp only [readKey, List.getD_eq_getElem?_getD, Pubkey.mk.injEq]
    exact Vector.ext fun i hi => by
      simp [hAt (10 + i) (by simp [programDataOffset]; omega)]
  simp only [readState, hAt 8 (by decide), hAt 9 (by decide), hSlot, hKey]

theorem getState_congr {data' : List UInt8} {st : LoaderV4State} (h : getState data = .ok st)
    (hLength : programDataOffset ≤ data'.length)
    (hTake : data'.take programDataOffset = data.take programDataOffset) :
    getState data' = .ok st :=
  getState_of_readState hLength ((readState_congr hTake).trans (getState_eq_ok h).2)

theorem getState_resized {st : LoaderV4State} (h : getState data = .ok st) {n : Nat}
    (hn : programDataOffset ≤ n) : getState (resized n data) = .ok st := by
  have hLength := (getState_eq_ok h).1
  refine getState_congr h (by simp [resized]; omega) ?_
  rw [resized, List.take_append_of_le_length (by simp; omega), List.take_take,
    Nat.min_eq_left hn]

theorem getState_overwrite {st : LoaderV4State} (h : getState data = .ok st) {offset : Nat}
    (hOffset : programDataOffset ≤ offset) (hFits : offset ≤ data.length) (src : List UInt8) :
    getState (overwrite offset src data) = .ok st := by
  have hLength := (getState_eq_ok h).1
  refine getState_congr h ?_ (take_overwrite hFits hOffset)
  simp only [overwrite, List.length_append, List.length_take, List.length_drop]
  omega

/-- Data too short for a header holds no state; an empty account in particular. -/
theorem getState_of_lt {st : LoaderV4State} (h : data.length < programDataOffset) :
    getState data ≠ .ok st :=
  fun hState => absurd (getState_eq_ok hState).1 (Nat.not_le_of_lt h)

/-- A resize keeps the state it does not cut off. -/
theorem getState_resized_eq {st st' : LoaderV4State} (h : getState data = .ok st) {n : Nat}
    (h' : getState (resized n data) = .ok st') : st' = st := by
  by_cases hn : programDataOffset ≤ n
  · exact Except.ok.inj (h'.symm.trans (getState_resized h hn))
  · exact absurd h' (getState_of_lt (by rw [length_resized]; omega))

/-! What `get_state_mut` and its assignments leave, read back by `get_state`. -/

theorem getState_writeSlot {st : LoaderV4State} (h : getState data = .ok st) {slot : Nat}
    (hSlot : slot < 2 ^ 64) : getState (writeSlot slot data) = .ok { st with slot } := by
  obtain ⟨hLength, hState⟩ := getState_eq_ok h
  exact getState_of_readState (by rw [length_writeSlot hLength]; exact hLength)
    (readState_writeSlot hSlot hState)

theorem getState_writeIsDeployed {st : LoaderV4State} (h : getState data = .ok st)
    (isDeployed : Bool) : getState (writeIsDeployed isDeployed data) = .ok { st with isDeployed } := by
  obtain ⟨hLength, hState⟩ := getState_eq_ok h
  exact getState_of_readState (by rw [length_writeIsDeployed hLength]; exact hLength)
    (readState_writeIsDeployed hLength hState isDeployed)

theorem getState_writeAuthorityAddress {st : LoaderV4State} (h : getState data = .ok st)
    (authorityAddress : Option Pubkey) :
    getState (writeAuthorityAddress authorityAddress data) = .ok { st with authorityAddress } := by
  obtain ⟨hLength, hState⟩ := getState_eq_ok h
  exact getState_of_readState (by rw [length_writeAuthorityAddress hLength]; exact hLength)
    (readState_writeAuthorityAddress hLength hState authorityAddress)

end Fields

end PutValidator.LoaderV4
