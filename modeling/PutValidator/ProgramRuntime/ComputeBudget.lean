import Mathlib
import PutValidator.Lib.Codec
import PutValidator.Lib.Except
import PutValidator.Sdk.Errors
import PutValidator.Sdk.Message

/-! Compute-budget instructions and `ComputeBudget::process_instructions`
(`program-runtime/src/compute_budget.rs`), with the fee it derives,
`PrioritizationFeeDetails::new` (`program-runtime/src/prioritization_fee.rs`).

The loop reads the instructions of the compute-budget program and remembers the limit, the
price, the heap frame and the data-size limit each one asks for; `RequestUnitsDeprecated` asks
for a limit and a price at once. A run succeeds exactly when every such instruction decodes to a
variant its feature enables, no kind is asked for twice and a requested heap frame has a valid
size; its results are then the requests, capped, with the fee of the requested price
(`processInstructions_spec`). -/
namespace PutValidator

open Lib.Word Lib.Codec Lib.Except

/-- `compute_budget::id()`, `ComputeBudget111111111111111111111111111111`. -/
def computeBudgetId : Pubkey := ⟨#v[3, 6, 70, 111, 229, 33, 23, 50, 255, 236, 173, 186, 114, 195, 155, 231,
    188, 140, 229, 187, 197, 247, 18, 107, 44, 67, 155, 58, 64, 0, 0, 0]⟩

def maxLoadedAccountsDataSizeBytes : Nat := 64 * 1024 * 1024

def defaultInstructionComputeUnitLimit : Nat := 1400000

def maxComputeUnitLimit : Nat := 1400000

def maxHeapFrameBytes : Nat := 256 * 1024

/-- `MIN_HEAP_FRAME_BYTES`, the `HEAP_LENGTH` of the entrypoint. -/
def minHeapFrameBytes : Nat := 32 * 1024

def microLamportsPerLamport : Nat := 1000000

/-- `ComputeBudgetInstruction`: `u32` and `u128` fields as `Nat`s. -/
inductive ComputeBudgetInstruction
  | requestUnitsDeprecated (units additionalFee : Nat)
  | requestHeapFrame (bytes : Nat)
  | setComputeUnitLimit (units : Nat)
  | setComputeUnitPrice (microLamports : Nat)
  | setLoadedAccountsDataSizeLimit (bytes : Nat)
deriving DecidableEq, Repr

namespace ComputeBudgetInstruction

/-- Borsh: the index of the variant in one byte, then the fields, a `u32` in four bytes and a
`u128` in sixteen, least significant first. -/
def encode : ComputeBudgetInstruction → List UInt8
  | requestUnitsDeprecated units additionalFee => 0 :: (encodeLE 4 units ++ encodeLE 16 additionalFee)
  | requestHeapFrame bytes => 1 :: encodeLE 4 bytes
  | setComputeUnitLimit units => 2 :: encodeLE 4 units
  | setComputeUnitPrice microLamports => 3 :: encodeLE 16 microLamports
  | setLoadedAccountsDataSizeLimit bytes => 4 :: encodeLE 4 bytes

/-- `BorshDeserialize::deserialize`, which reads a prefix of the data; `try_from_slice_unchecked`
ignores what is left. -/
def decode : Decoder ComputeBudgetInstruction
  | [] => none
  | tag :: input =>
      match tag.toNat with
      | 0 => (decodeLE 4 input).bind fun units =>
          (decodeLE 16 units.2).map fun fee => (requestUnitsDeprecated units.1 fee.1, fee.2)
      | 1 => (decodeLE 4 input).map fun bytes => (requestHeapFrame bytes.1, bytes.2)
      | 2 => (decodeLE 4 input).map fun units => (setComputeUnitLimit units.1, units.2)
      | 3 => (decodeLE 16 input).map fun price => (setComputeUnitPrice price.1, price.2)
      | 4 => (decodeLE 4 input).map fun bytes => (setLoadedAccountsDataSizeLimit bytes.1, bytes.2)
      | _ => none

/-- The fields fit their widths. -/
def Canonical : ComputeBudgetInstruction → Prop
  | requestUnitsDeprecated units additionalFee => units < 256 ^ 4 ∧ additionalFee < 256 ^ 16
  | requestHeapFrame bytes => bytes < 256 ^ 4
  | setComputeUnitLimit units => units < 256 ^ 4
  | setComputeUnitPrice microLamports => microLamports < 256 ^ 16
  | setLoadedAccountsDataSizeLimit bytes => bytes < 256 ^ 4

theorem tag_eq_of_toNat_eq {tag : UInt8} {n : Nat} (h : tag.toNat = n) (hn : n < 256) :
    tag = UInt8.ofNat n :=
  UInt8.toNat_inj.mp (by simp [h, Nat.mod_eq_of_lt hn])

theorem decode_encode (v : ComputeBudgetInstruction) (rest : List UInt8) (hv : v.Canonical) :
    decode (v.encode ++ rest) = some (v, rest) := by
  cases v with
  | requestUnitsDeprecated units additionalFee =>
      obtain ⟨hUnits, hFee⟩ := hv
      simp [encode, decode, decodeLE_encodeLE _ 4 units hUnits,
        decodeLE_encodeLE _ 16 additionalFee hFee]
  | requestHeapFrame bytes => simp [encode, decode, decodeLE_encodeLE _ 4 bytes hv]
  | setComputeUnitLimit units => simp [encode, decode, decodeLE_encodeLE _ 4 units hv]
  | setComputeUnitPrice microLamports =>
      simp [encode, decode, decodeLE_encodeLE _ 16 microLamports hv]
  | setLoadedAccountsDataSizeLimit bytes => simp [encode, decode, decodeLE_encodeLE _ 4 bytes hv]

theorem decode_sound {input rest : List UInt8} {v : ComputeBudgetInstruction}
    (h : decode input = some (v, rest)) : v.Canonical ∧ input = v.encode ++ rest := by
  match input, h with
  | tag :: input, h =>
    simp only [decode] at h
    split at h
    · obtain ⟨⟨units, mid⟩, hUnits, hRead⟩ := Option.bind_eq_some_iff.mp h
      obtain ⟨⟨fee, rest'⟩, hFee, hEq⟩ := Option.map_eq_some_iff.mp hRead
      cases hEq
      obtain ⟨hU, rfl⟩ := decodeLE_sound hUnits
      obtain ⟨hF, rfl⟩ := decodeLE_sound hFee
      refine ⟨⟨hU, hF⟩, ?_⟩
      simp [encode, tag_eq_of_toNat_eq ‹_› (by decide)]
    all_goals first
      | (obtain ⟨⟨x, rest'⟩, hx, hEq⟩ := Option.map_eq_some_iff.mp h
         cases hEq
         obtain ⟨hBound, rfl⟩ := decodeLE_sound hx
         exact ⟨hBound, by simp [encode, tag_eq_of_toNat_eq ‹_› (by decide)]⟩)
      | cases h

/-- Borsh's layout of `ComputeBudgetInstruction`. -/
def codec : Codec ComputeBudgetInstruction where
  encode := encode
  decode := decode
  Canonical := Canonical
  decode_encode := decode_encode
  decode_sound := decode_sound

end ComputeBudgetInstruction

/-- `PrioritizationFeeType`: a price per compute unit, or the flat fee of the deprecated
instruction. -/
inductive PrioritizationFeeType
  | computeUnitPrice (microLamports : Nat)
  | deprecated (fee : Nat)
deriving DecidableEq, Repr

structure PrioritizationFeeDetails where
  fee : Nat
  priority : Nat
deriving DecidableEq, Repr

namespace PrioritizationFeeDetails

def default : PrioritizationFeeDetails := ⟨0, 0⟩

/-- `PrioritizationFeeDetails::new`: the arithmetic in `U256`, saturating, and the result read
back into a `u128`, saturating. -/
def new (feeType : PrioritizationFeeType) (computeUnitLimit : Nat) : PrioritizationFeeDetails :=
  match feeType with
  | .deprecated fee =>
      let priority :=
        if computeUnitLimit = 0 then 0
        else
          let microLamportFee := saturatingMul 256 fee microLamportsPerLamport
          let priority := microLamportFee / computeUnitLimit
          (tryFrom 128 priority).getD (maxValue 128)
      ⟨fee, priority⟩
  | .computeUnitPrice cuPrice =>
      let microLamportFee := saturatingMul 256 cuPrice computeUnitLimit
      let fee := saturatingAdd 256 microLamportFee (microLamportsPerLamport - 1) / microLamportsPerLamport
      ⟨(tryFrom 128 fee).getD (maxValue 128), cuPrice⟩

end PrioritizationFeeDetails

/-- The fields of `ComputeBudget` that `process_instructions` writes. -/
structure ComputeBudget where
  computeUnitLimit : Nat
  heapSize : Option Nat
  loadedAccountsDataSizeLimit : Nat
deriving DecidableEq, Repr

/-- The locals that the loop of `process_instructions` updates; the heap frame keeps the index
of its instruction, `i as u8`, for the error of a bad size. -/
structure BudgetRequests where
  numNonComputeBudgetInstructions : Nat
  updatedComputeUnitLimit : Option Nat
  requestedHeapSize : Option (Nat × UInt8)
  prioritizationFee : Option PrioritizationFeeType
  updatedLoadedAccountsDataSizeLimit : Option Nat
deriving DecidableEq, Repr

def BudgetRequests.init : BudgetRequests := ⟨0, none, none, none, none⟩

/-- The body of the loop of `process_instructions`, at the `i`-th instruction. -/
def requestInstruction (supportRequestUnitsDeprecated supportSetLoadedAccountsDataSizeLimitIx : Bool)
    (requests : BudgetRequests) (i : Nat) (programId : Pubkey) (instruction : CompiledInstruction) :
    Except TransactionError BudgetRequests :=
  if programId = computeBudgetId then
    let invalidInstructionDataError :=
      TransactionError.instructionError (UInt8.ofNat i) .invalidInstructionData
    let duplicateInstructionError := TransactionError.duplicateInstruction (UInt8.ofNat i)
    match (ComputeBudgetInstruction.decode instruction.data).map Prod.fst with
    | some (.requestUnitsDeprecated computeUnitLimit additionalFee) =>
        if supportRequestUnitsDeprecated then
          if requests.updatedComputeUnitLimit.isSome then .error duplicateInstructionError
          else if requests.prioritizationFee.isSome then .error duplicateInstructionError
          else .ok { requests with
            updatedComputeUnitLimit := some computeUnitLimit
            prioritizationFee := some (.deprecated additionalFee) }
        else .error invalidInstructionDataError
    | some (.requestHeapFrame bytes) =>
        if requests.requestedHeapSize.isSome then .error duplicateInstructionError
        else .ok { requests with requestedHeapSize := some (bytes, UInt8.ofNat i) }
    | some (.setComputeUnitLimit computeUnitLimit) =>
        if requests.updatedComputeUnitLimit.isSome then .error duplicateInstructionError
        else .ok { requests with updatedComputeUnitLimit := some computeUnitLimit }
    | some (.setComputeUnitPrice microLamports) =>
        if requests.prioritizationFee.isSome then .error duplicateInstructionError
        else .ok { requests with prioritizationFee := some (.computeUnitPrice microLamports) }
    | some (.setLoadedAccountsDataSizeLimit bytes) =>
        if supportSetLoadedAccountsDataSizeLimitIx then
          if requests.updatedLoadedAccountsDataSizeLimit.isSome then .error duplicateInstructionError
          else .ok { requests with updatedLoadedAccountsDataSizeLimit := some bytes }
        else .error invalidInstructionDataError
    | none => .error invalidInstructionDataError
  else
    -- only include non-request instructions in default max calc
    .ok { requests with
      numNonComputeBudgetInstructions := saturatingAdd 32 requests.numNonComputeBudgetInstructions 1 }

/-- `ComputeBudget::process_instructions`. It writes the budget only after the last check, so a
failed run leaves it as it was, and it returns the new budget with the fee. -/
def processInstructions (budget : ComputeBudget) (instructions : List (Pubkey × CompiledInstruction))
    (defaultUnitsPerInstruction supportRequestUnitsDeprecated enableRequestHeapFrameIx
      supportSetLoadedAccountsDataSizeLimitIx : Bool) :
    Except TransactionError (ComputeBudget × PrioritizationFeeDetails) := do
  let requests ← instructions.zipIdx.foldlM (fun requests entry =>
    requestInstruction supportRequestUnitsDeprecated supportSetLoadedAccountsDataSizeLimitIx
      requests entry.2 entry.1.1 entry.1.2) BudgetRequests.init
  let heapSize ← (match requests.requestedHeapSize with
    | some (bytes, i) =>
        if !enableRequestHeapFrameIx || decide (maxHeapFrameBytes < bytes) ||
            decide (bytes < minHeapFrameBytes) || bytes % 1024 != 0 then
          .error (.instructionError i .invalidInstructionData)
        else .ok (some bytes)
    | none => .ok budget.heapSize)
  let computeUnitLimit := min
    ((if defaultUnitsPerInstruction then
        requests.updatedComputeUnitLimit.orElse fun _ => some (saturatingMul 32
          requests.numNonComputeBudgetInstructions defaultInstructionComputeUnitLimit)
      else requests.updatedComputeUnitLimit).getD maxComputeUnitLimit)
    maxComputeUnitLimit
  let loadedAccountsDataSizeLimit := min
    (requests.updatedLoadedAccountsDataSizeLimit.getD maxLoadedAccountsDataSizeBytes)
    maxLoadedAccountsDataSizeBytes
  .ok (⟨computeUnitLimit, heapSize, loadedAccountsDataSizeLimit⟩,
    (requests.prioritizationFee.map fun feeType =>
      PrioritizationFeeDetails.new feeType computeUnitLimit).getD PrioritizationFeeDetails.default)

/-! ### What the instructions ask for -/

namespace ComputeBudgetInstruction

/-- The features let the loop accept the variant. -/
def enabled (supportRequestUnitsDeprecated supportSetLoadedAccountsDataSizeLimitIx : Bool) :
    ComputeBudgetInstruction → Bool
  | requestUnitsDeprecated .. => supportRequestUnitsDeprecated
  | setLoadedAccountsDataSizeLimit _ => supportSetLoadedAccountsDataSizeLimitIx
  | _ => true

def limitRequest : ComputeBudgetInstruction → Option Nat
  | requestUnitsDeprecated units _ => some units
  | setComputeUnitLimit units => some units
  | _ => none

def priceRequest : ComputeBudgetInstruction → Option PrioritizationFeeType
  | requestUnitsDeprecated _ additionalFee => some (.deprecated additionalFee)
  | setComputeUnitPrice microLamports => some (.computeUnitPrice microLamports)
  | _ => none

def heapRequest : ComputeBudgetInstruction → Option Nat
  | requestHeapFrame bytes => some bytes
  | _ => none

def dataSizeRequest : ComputeBudgetInstruction → Option Nat
  | setLoadedAccountsDataSizeLimit bytes => some bytes
  | _ => none

end ComputeBudgetInstruction

open ComputeBudgetInstruction

/-- The compute-budget instructions of a transaction, each as the decoder reads its data. -/
def budgetRequests (instructions : List (Pubkey × CompiledInstruction)) :
    List (Option ComputeBudgetInstruction) :=
  (instructions.filter fun entry => entry.1 = computeBudgetId).map fun entry =>
    (decode entry.2.data).map Prod.fst

def nonBudgetCount (instructions : List (Pubkey × CompiledInstruction)) : Nat :=
  (instructions.filter fun entry => entry.1 ≠ computeBudgetId).length

/-- What a successful run needs of the decoded requests: each variant enabled, each kind asked
for at most once, and a heap frame of a valid size that its feature allows. -/
structure BudgetAccepted (supportRequestUnitsDeprecated enableRequestHeapFrameIx
    supportSetLoadedAccountsDataSizeLimitIx : Bool) (requests : List ComputeBudgetInstruction) :
    Prop where
  enabled : ∀ v ∈ requests,
    v.enabled supportRequestUnitsDeprecated supportSetLoadedAccountsDataSizeLimitIx = true
  limit_once : (requests.filterMap limitRequest).length ≤ 1
  price_once : (requests.filterMap priceRequest).length ≤ 1
  heap_once : (requests.filterMap heapRequest).length ≤ 1
  dataSize_once : (requests.filterMap dataSizeRequest).length ≤ 1
  heap_valid : ∀ bytes ∈ requests.filterMap heapRequest, enableRequestHeapFrameIx = true ∧
    minHeapFrameBytes ≤ bytes ∧ bytes ≤ maxHeapFrameBytes ∧ bytes % 1024 = 0

/-- The fee and priority of what a transaction offers at a compute-unit limit: for a price, the
price of the limit in lamports, rounded up; for a flat fee, the micro-lamports it pays per unit,
rounded down; each capped at `u128::MAX`. -/
def feeDetails (computeUnitLimit : Nat) : Option PrioritizationFeeType → PrioritizationFeeDetails
  | none => PrioritizationFeeDetails.default
  | some (.computeUnitPrice price) =>
      ⟨min ((price * computeUnitLimit + microLamportsPerLamport - 1) / microLamportsPerLamport)
        (maxValue 128), price⟩
  | some (.deprecated fee) =>
      ⟨fee, if computeUnitLimit = 0 then 0
        else min (fee * microLamportsPerLamport / computeUnitLimit) (maxValue 128)⟩

/-! ### The loop -/

/-- An optional value and the values of a list: at most one between them. -/
def AtMostOne {α : Type} (o : Option α) (l : List α) : Prop := (o.toList ++ l).length ≤ 1

section AtMostOne

variable {α β : Type}

@[simp] theorem atMostOne_nil (o : Option α) : AtMostOne o [] := by
  cases o <;> simp [AtMostOne]

@[simp] theorem atMostOne_singleton {o : Option α} {a : α} : AtMostOne o [a] ↔ o = none := by
  cases o <;> simp [AtMostOne]

theorem atMostOne_none {l : List α} : AtMostOne none l ↔ l.length ≤ 1 := by
  simp [AtMostOne]

/-- The first value of a list yields its value or none, and the rest is checked against it. -/
theorem atMostOne_filterMap_cons {o : Option α} {f : β → Option α} {b : β} {l : List β} :
    AtMostOne o ((b :: l).filterMap f) ↔
      AtMostOne o ([b].filterMap f) ∧ AtMostOne ((f b).or o) (l.filterMap f) := by
  rcases hb : f b with _ | a
  · simp [hb]
  · cases o <;> simp [AtMostOne, hb]

/-- Of a list whose values under `f` are at most one, the last value is the first. -/
theorem findSome?_reverse_of_length_le_one {l : List β} {f : β → Option α}
    (h : (l.filterMap f).length ≤ 1) : l.reverse.findSome? f = l.findSome? f := by
  rw [← List.head?_filterMap, ← List.head?_filterMap, List.filterMap_reverse]
  generalize l.filterMap f = m at h
  rcases m with _ | ⟨a, _ | ⟨b, m⟩⟩ <;> simp at h ⊢

theorem findSome?_eq_some_of_mem_filterMap {l : List β} {f : β → Option α} {a : α}
    (h : (l.filterMap f).length ≤ 1) (ha : a ∈ l.filterMap f) : l.findSome? f = some a := by
  rw [← List.head?_filterMap]
  generalize l.filterMap f = m at h ha
  rcases m with _ | ⟨b, _ | ⟨c, m⟩⟩ <;> simp_all

end AtMostOne

namespace BudgetRequests

/-- The requests recorded and the ones to come ask for each kind at most once. -/
def KindsOnce (r : BudgetRequests) (requests : List ComputeBudgetInstruction) : Prop :=
  AtMostOne r.updatedComputeUnitLimit (requests.filterMap limitRequest) ∧
    AtMostOne r.prioritizationFee (requests.filterMap priceRequest) ∧
    AtMostOne (r.requestedHeapSize.map Prod.fst) (requests.filterMap heapRequest) ∧
    AtMostOne r.updatedLoadedAccountsDataSizeLimit (requests.filterMap dataSizeRequest)

/-- What the loop records of an accepted request at the `i`-th instruction. -/
def record (r : BudgetRequests) (v : ComputeBudgetInstruction) (i : Nat) : BudgetRequests where
  numNonComputeBudgetInstructions := r.numNonComputeBudgetInstructions
  updatedComputeUnitLimit := (limitRequest v).or r.updatedComputeUnitLimit
  requestedHeapSize := ((heapRequest v).map fun bytes => (bytes, UInt8.ofNat i)).or r.requestedHeapSize
  prioritizationFee := (priceRequest v).or r.prioritizationFee
  updatedLoadedAccountsDataSizeLimit :=
    (dataSizeRequest v).or r.updatedLoadedAccountsDataSizeLimit

def countNonBudget (r : BudgetRequests) : BudgetRequests :=
  { r with numNonComputeBudgetInstructions := saturatingAdd 32 r.numNonComputeBudgetInstructions 1 }

/-- The loop's body where it succeeds. -/
def absorb (r : BudgetRequests) (entry : (Pubkey × CompiledInstruction) × Nat) : BudgetRequests :=
  if entry.1.1 = computeBudgetId then
    match (decode entry.1.2.data).map Prod.fst with
    | some v => r.record v entry.2
    | none => r
  else r.countNonBudget

theorem heap_record (r : BudgetRequests) (v : ComputeBudgetInstruction) (i : Nat) :
    (r.record v i).requestedHeapSize.map Prod.fst =
      (heapRequest v).or (r.requestedHeapSize.map Prod.fst) := by
  rcases hv : heapRequest v with _ | bytes <;> simp [record, hv]

theorem kindsOnce_cons {r : BudgetRequests} {v : ComputeBudgetInstruction}
    {requests : List ComputeBudgetInstruction} (i : Nat) :
    r.KindsOnce (v :: requests) ↔ r.KindsOnce [v] ∧ (r.record v i).KindsOnce requests := by
  have hHeap := heap_record r v i
  have hLimit := atMostOne_filterMap_cons (o := r.updatedComputeUnitLimit) (f := limitRequest)
    (b := v) (l := requests)
  have hPrice := atMostOne_filterMap_cons (o := r.prioritizationFee) (f := priceRequest)
    (b := v) (l := requests)
  have hHeapOnce := atMostOne_filterMap_cons (o := r.requestedHeapSize.map Prod.fst)
    (f := heapRequest) (b := v) (l := requests)
  have hDataSize := atMostOne_filterMap_cons (o := r.updatedLoadedAccountsDataSizeLimit)
    (f := dataSizeRequest) (b := v) (l := requests)
  simp only [KindsOnce, hHeap, hLimit, hPrice, hHeapOnce, hDataSize]
  simp only [record]
  tauto

@[simp] theorem kindsOnce_countNonBudget {r : BudgetRequests}
    {requests : List ComputeBudgetInstruction} :
    r.countNonBudget.KindsOnce requests ↔ r.KindsOnce requests := Iff.rfl

end BudgetRequests

open BudgetRequests

/-- One pass of the loop succeeds on an instruction of another program, counting it, and on a
compute-budget instruction that decodes to an enabled variant asking for kinds not yet asked
for, recording it. -/
theorem requestInstruction_eq_ok {s l : Bool} {r r' : BudgetRequests} {i : Nat} {programId : Pubkey}
    {instruction : CompiledInstruction} :
    requestInstruction s l r i programId instruction = .ok r' ↔
      if programId = computeBudgetId then
        ∃ v, (decode instruction.data).map Prod.fst = some v ∧ v.enabled s l = true ∧
          r.KindsOnce [v] ∧ r.record v i = r'
      else r.countNonBudget = r' := by
  unfold requestInstruction
  by_cases hId : programId = computeBudgetId
  · rw [if_pos hId, if_pos hId]
    generalize (decode instruction.data).map Prod.fst = read
    rcases read with _ | v
    · simp
    · simp only [Option.some.injEq, exists_eq_left']
      cases v <;> simp only [enabled, KindsOnce, record, limitRequest, priceRequest, heapRequest,
          dataSizeRequest, List.filterMap_cons, List.filterMap_nil, atMostOne_singleton,
          atMostOne_nil, Option.map_none, Option.map_some, Option.some_or, Option.none_or,
          Option.map_eq_none_iff, and_true, true_and] <;>
        split_ifs <;> simp_all [Option.isSome_iff_ne_none]
  · rw [if_neg hId, if_neg hId]
    simp [countNonBudget]

theorem budgetRequests_cons_of_eq {programId : Pubkey} (hId : programId = computeBudgetId)
    (instruction : CompiledInstruction) (rest : List (Pubkey × CompiledInstruction)) :
    budgetRequests ((programId, instruction) :: rest) =
      (decode instruction.data).map Prod.fst :: budgetRequests rest := by
  simp [budgetRequests, hId]

theorem budgetRequests_cons_of_ne {programId : Pubkey} (hId : programId ≠ computeBudgetId)
    (instruction : CompiledInstruction) (rest : List (Pubkey × CompiledInstruction)) :
    budgetRequests ((programId, instruction) :: rest) = budgetRequests rest := by
  simp [budgetRequests, hId]

/-- The loop, from any requests and any index, succeeds exactly when every compute-budget
instruction decodes to an enabled variant and each kind is asked for at most once, counting the
requests already recorded; it then ends where its successful body, run over all the
instructions, ends. -/
theorem foldlM_requestInstruction_eq_ok {s l : Bool} :
    ∀ (instructions : List (Pubkey × CompiledInstruction)) (k : Nat) (r r' : BudgetRequests),
      (instructions.zipIdx k).foldlM (fun requests entry =>
          requestInstruction s l requests entry.2 entry.1.1 entry.1.2) r = .ok r' ↔
        ∃ requests, budgetRequests instructions = requests.map some ∧
          (∀ v ∈ requests, v.enabled s l = true) ∧ r.KindsOnce requests ∧
          (instructions.zipIdx k).foldl absorb r = r'
  | [], k, r, r' => by simp [budgetRequests, KindsOnce]
  | (programId, instruction) :: rest, k, r, r' => by
      rw [List.zipIdx_cons, List.foldlM_cons, bind_eq_ok, List.foldl_cons]
      by_cases hId : programId = computeBudgetId
      · simp only [requestInstruction_eq_ok, if_pos hId, budgetRequests_cons_of_eq hId]
        constructor
        · rintro ⟨mid, ⟨v, hv, hEnabled, hOnce, rfl⟩, hRest⟩
          obtain ⟨requests, hEq, hAll, hKinds, hFold⟩ :=
            (foldlM_requestInstruction_eq_ok rest (k + 1) _ r').mp hRest
          refine ⟨v :: requests, by simp [hv, hEq], ?_, (kindsOnce_cons k).mpr ⟨hOnce, hKinds⟩, ?_⟩
          · intro w hw
            rcases List.mem_cons.mp hw with rfl | hw
            · exact hEnabled
            · exact hAll w hw
          · simpa [absorb, hId, hv] using hFold
        · rintro ⟨requests, hEq, hAll, hKinds, hFold⟩
          cases requests with
          | nil => simp at hEq
          | cons v requests =>
              simp only [List.map_cons, List.cons.injEq] at hEq
              obtain ⟨hv, hEq⟩ := hEq
              obtain ⟨hOnce, hKindsRest⟩ := (kindsOnce_cons k).mp hKinds
              refine ⟨r.record v k, ⟨v, hv, hAll v List.mem_cons_self, hOnce, rfl⟩, ?_⟩
              apply (foldlM_requestInstruction_eq_ok rest (k + 1) _ r').mpr
              refine ⟨requests, hEq, fun w hw => hAll w (List.mem_cons_of_mem v hw), hKindsRest, ?_⟩
              simpa [absorb, hId, hv] using hFold
      · simp only [requestInstruction_eq_ok, if_neg hId, budgetRequests_cons_of_ne hId,
          exists_eq_left', foldlM_requestInstruction_eq_ok rest (k + 1), kindsOnce_countNonBudget]
        simp [absorb, hId]

/-! The fields of the requests after the loop. -/

/-- A field that `record` sets from one kind of request and that counting leaves alone ends the
loop holding the last request of its kind, or what it held. -/
theorem get_foldl_absorb {α : Type} (get : BudgetRequests → Option α)
    (kind : ComputeBudgetInstruction → Option α)
    (hRecord : ∀ r v i, get (r.record v i) = (kind v).or (get r))
    (hCount : ∀ r, get r.countNonBudget = get r) :
    ∀ (instructions : List (Pubkey × CompiledInstruction)) (k : Nat) (r : BudgetRequests)
      (requests : List ComputeBudgetInstruction), budgetRequests instructions = requests.map some →
      get ((instructions.zipIdx k).foldl absorb r) = (requests.reverse.findSome? kind).or (get r)
  | [], _, r, requests, h => by
      cases requests with
      | nil => simp
      | cons => simp [budgetRequests] at h
  | (programId, instruction) :: rest, k, r, requests, h => by
      rw [List.zipIdx_cons, List.foldl_cons]
      by_cases hId : programId = computeBudgetId
      · rw [budgetRequests_cons_of_eq hId] at h
        cases requests with
        | nil => simp at h
        | cons v requests =>
            simp only [List.map_cons, List.cons.injEq] at h
            obtain ⟨hv, hRest⟩ := h
            have hAbsorb : absorb r ((programId, instruction), k) = r.record v k := by
              simp [absorb, hId, hv]
            rw [hAbsorb, get_foldl_absorb get kind hRecord hCount rest (k + 1) _ requests hRest,
              hRecord, List.reverse_cons, List.findSome?_append, Option.or_assoc]
            simp
      · rw [budgetRequests_cons_of_ne hId] at h
        have hAbsorb : absorb r ((programId, instruction), k) = r.countNonBudget := by
          simp [absorb, hId]
        rw [hAbsorb, get_foldl_absorb get kind hRecord hCount rest (k + 1) _ requests h, hCount]

theorem numNonComputeBudgetInstructions_foldl_absorb :
    ∀ (instructions : List (Pubkey × CompiledInstruction)) (k : Nat) (r : BudgetRequests),
      r.numNonComputeBudgetInstructions ≤ maxValue 32 →
      ((instructions.zipIdx k).foldl absorb r).numNonComputeBudgetInstructions =
        saturatingAdd 32 r.numNonComputeBudgetInstructions (nonBudgetCount instructions)
  | [], _, r, hNum => by simp [nonBudgetCount, saturatingAdd, hNum]
  | (programId, instruction) :: rest, k, r, hNum => by
      rw [List.zipIdx_cons, List.foldl_cons]
      by_cases hId : programId = computeBudgetId
      · have hCount : nonBudgetCount ((programId, instruction) :: rest) = nonBudgetCount rest := by
          simp [nonBudgetCount, hId]
        have hKeep : (absorb r ((programId, instruction), k)).numNonComputeBudgetInstructions =
            r.numNonComputeBudgetInstructions := by
          unfold absorb
          rw [if_pos hId]
          split <;> rfl
        rw [numNonComputeBudgetInstructions_foldl_absorb rest (k + 1) _ (hKeep ▸ hNum), hKeep,
          hCount]
      · have hCount : nonBudgetCount ((programId, instruction) :: rest) =
            1 + nonBudgetCount rest := by
          simp [nonBudgetCount, hId, Nat.add_comm]
        have hAbsorb : absorb r ((programId, instruction), k) = r.countNonBudget := by
          simp [absorb, hId]
        rw [hAbsorb, numNonComputeBudgetInstructions_foldl_absorb rest (k + 1) _
          (saturatingAdd_le_maxValue 32 _ 1)]
        simp only [countNonBudget, hCount, saturatingAdd_saturatingAdd]

/-- After the loop from the initial requests, each field holds the request of its kind, and the
counter the number of other instructions, saturated at `u32::MAX`. -/
theorem foldl_absorb_init {instructions : List (Pubkey × CompiledInstruction)}
    {requests : List ComputeBudgetInstruction} (h : budgetRequests instructions = requests.map some) :
    let r := instructions.zipIdx.foldl absorb BudgetRequests.init
    r.updatedComputeUnitLimit = requests.reverse.findSome? limitRequest ∧
      r.prioritizationFee = requests.reverse.findSome? priceRequest ∧
      r.requestedHeapSize.map Prod.fst = requests.reverse.findSome? heapRequest ∧
      r.updatedLoadedAccountsDataSizeLimit = requests.reverse.findSome? dataSizeRequest ∧
      r.numNonComputeBudgetInstructions = saturatingAdd 32 0 (nonBudgetCount instructions) := by
  intro r
  have hLimit := get_foldl_absorb BudgetRequests.updatedComputeUnitLimit limitRequest
    (fun _ _ _ => rfl) (fun _ => rfl) instructions 0 BudgetRequests.init requests h
  have hPrice := get_foldl_absorb BudgetRequests.prioritizationFee priceRequest
    (fun _ _ _ => rfl) (fun _ => rfl) instructions 0 BudgetRequests.init requests h
  have hHeap := get_foldl_absorb (fun r => r.requestedHeapSize.map Prod.fst) heapRequest
    heap_record (fun _ => rfl) instructions 0 BudgetRequests.init requests h
  have hDataSize := get_foldl_absorb BudgetRequests.updatedLoadedAccountsDataSizeLimit
    dataSizeRequest (fun _ _ _ => rfl) (fun _ => rfl) instructions 0 BudgetRequests.init requests h
  have hNum := numNonComputeBudgetInstructions_foldl_absorb instructions 0 BudgetRequests.init
    (Nat.zero_le _)
  simp only [BudgetRequests.init, Option.map_none, Option.or_none] at hLimit hPrice hHeap hDataSize
  exact ⟨hLimit, hPrice, hHeap, hDataSize, hNum⟩

/-! ### The fee -/

/-- The amount of a fee type fits a `u128`. -/
def PrioritizationFeeType.Fits : PrioritizationFeeType → Prop
  | .computeUnitPrice microLamports => microLamports < 2 ^ 128
  | .deprecated fee => fee < 2 ^ 128

/-- For a `u128` amount and limit the `U256` arithmetic of `new` never saturates, and only the
conversion back to `u128` caps the result. -/
theorem PrioritizationFeeDetails.new_eq_feeDetails {feeType : PrioritizationFeeType}
    (hFits : feeType.Fits) {computeUnitLimit : Nat} (hLimit : computeUnitLimit < 2 ^ 128) :
    new feeType computeUnitLimit = feeDetails computeUnitLimit (some feeType) := by
  cases feeType with
  | computeUnitPrice price =>
      have hProduct := Nat.mul_le_mul (Nat.le_pred_of_lt (show price < 2 ^ 128 from hFits))
        (Nat.le_pred_of_lt hLimit)
      have hMul : saturatingMul 256 price computeUnitLimit = price * computeUnitLimit := by
        apply saturatingMul_of_le
        unfold maxValue
        norm_num at hProduct ⊢
        omega
      have hAdd : saturatingAdd 256 (price * computeUnitLimit) (microLamportsPerLamport - 1) =
          price * computeUnitLimit + microLamportsPerLamport - 1 := by
        rw [saturatingAdd_of_le (by unfold maxValue microLamportsPerLamport; norm_num at hProduct ⊢; omega)]
        unfold microLamportsPerLamport
        omega
      simp only [new, feeDetails, hMul, hAdd, getD_tryFrom_maxValue]
  | deprecated fee =>
      have hMul : saturatingMul 256 fee microLamportsPerLamport = fee * microLamportsPerLamport := by
        apply saturatingMul_of_le
        have hFee : fee < 2 ^ 128 := hFits
        unfold maxValue microLamportsPerLamport
        norm_num at hFee ⊢
        omega
      simp only [new, feeDetails, hMul, getD_tryFrom_maxValue]

theorem fits_of_priceRequest {v : ComputeBudgetInstruction} (hv : v.Canonical)
    {feeType : PrioritizationFeeType} (h : priceRequest v = some feeType) : feeType.Fits := by
  have hWidth : (256 : Nat) ^ 16 = 2 ^ 128 := by norm_num
  cases v <;> simp only [priceRequest, reduceCtorEq, Option.some.injEq] at h <;> subst h
  · show _ < 2 ^ 128
    exact hWidth ▸ hv.2
  · show _ < 2 ^ 128
    exact hWidth ▸ hv

theorem canonical_of_mem_budgetRequests {instructions : List (Pubkey × CompiledInstruction)}
    {requests : List ComputeBudgetInstruction} (h : budgetRequests instructions = requests.map some)
    {v : ComputeBudgetInstruction} (hv : v ∈ requests) : v.Canonical := by
  have hMem : some v ∈ budgetRequests instructions := h ▸ List.mem_map_of_mem hv
  obtain ⟨entry, -, hEntry⟩ := List.mem_map.mp hMem
  obtain ⟨⟨w, rest⟩, hDecode, rfl⟩ := Option.map_eq_some_iff.mp hEntry
  exact (decode_sound hDecode).1

/-! ### The run -/

/-- The compute-unit limit of a run: the requested limit, or without one the default per
instruction where that feature is on, capped at `MAX_COMPUTE_UNIT_LIMIT`. -/
def computeUnitLimitOf (defaultUnitsPerInstruction : Bool) (requestedLimit : Option Nat)
    (otherInstructions : Nat) : Nat :=
  min (requestedLimit.getD (if defaultUnitsPerInstruction then
      saturatingMul 32 otherInstructions defaultInstructionComputeUnitLimit
    else maxComputeUnitLimit)) maxComputeUnitLimit

/-- The limit `process_instructions` computes from the loop's requests is `computeUnitLimitOf`,
for any default and cap: a counter saturated at `u32::MAX` gives the same saturated product. -/
theorem min_getD_requestedLimit (defaultUnitsPerInstruction : Bool) (requested : Option Nat)
    (count d cap : Nat) :
    min ((if defaultUnitsPerInstruction then
        requested.orElse fun _ => some (saturatingMul 32 (saturatingAdd 32 0 count) d)
      else requested).getD cap) cap =
      min (requested.getD (if defaultUnitsPerInstruction then saturatingMul 32 count d else cap))
        cap := by
  rcases requested with _ | units <;> cases defaultUnitsPerInstruction
  · rfl
  · simp only [if_true, Option.orElse_none, Option.getD_some, Option.getD_none, saturatingMul,
      saturatingAdd, Nat.zero_add]
    congr 1
    generalize maxValue 32 = bound
    by_cases hCount : count ≤ bound
    · rw [Nat.min_eq_left hCount]
    · rcases Nat.eq_zero_or_pos d with rfl | hd
      · simp
      · have hBound := Nat.le_mul_of_pos_right bound hd
        have hProduct := Nat.le_mul_of_pos_right count hd
        rw [Nat.min_eq_right (by omega : bound ≤ count)]
        omega
  · rfl
  · rfl

section Run

variable {budget : ComputeBudget} {instructions : List (Pubkey × CompiledInstruction)}
  {defaultUnitsPerInstruction supportRequestUnitsDeprecated enableRequestHeapFrameIx
    supportSetLoadedAccountsDataSizeLimitIx : Bool}

/-- A run that succeeds had accepted requests. -/
theorem budgetAccepted_of_processInstructions {result : ComputeBudget × PrioritizationFeeDetails}
    (h : processInstructions budget instructions defaultUnitsPerInstruction
      supportRequestUnitsDeprecated enableRequestHeapFrameIx
      supportSetLoadedAccountsDataSizeLimitIx = .ok result) :
    ∃ requests, budgetRequests instructions = requests.map some ∧
      BudgetAccepted supportRequestUnitsDeprecated enableRequestHeapFrameIx
        supportSetLoadedAccountsDataSizeLimitIx requests := by
  simp only [processInstructions, bind_eq_ok] at h
  obtain ⟨r, hLoop, heapSize, hHeapSize, -⟩ := h
  obtain ⟨requests, hEq, hEnabled, hKinds, rfl⟩ :=
    (foldlM_requestInstruction_eq_ok instructions 0 _ r).mp hLoop
  obtain ⟨hLimit, hPrice, hHeapOnce, hDataSize⟩ := hKinds
  simp only [BudgetRequests.init, Option.map_none, atMostOne_none] at hLimit hPrice hHeapOnce hDataSize
  refine ⟨requests, hEq, ⟨hEnabled, hLimit, hPrice, hHeapOnce, hDataSize, ?_⟩⟩
  intro bytes hBytes
  -- the heap frame asked for is the one the loop kept, and its check passed
  have hKept := (foldl_absorb_init hEq).2.2.1
  rw [findSome?_reverse_of_length_le_one hHeapOnce,
    findSome?_eq_some_of_mem_filterMap hHeapOnce hBytes] at hKept
  obtain ⟨⟨kept, i⟩, hSome, hKeptBytes⟩ := Option.map_eq_some_iff.mp hKept
  subst hKeptBytes
  simp only [hSome] at hHeapSize
  split at hHeapSize
  · cases hHeapSize
  · rename_i hCheck
    simp only [Bool.or_eq_true, Bool.not_eq_eq_eq_not, Bool.not_true, decide_eq_true_eq,
      bne_iff_ne, ne_eq, not_or, Bool.not_eq_false, not_lt, not_not] at hCheck
    obtain ⟨⟨⟨hEnable, hMax⟩, hMin⟩, hMod⟩ := hCheck
    exact ⟨hEnable, hMin, hMax, hMod⟩

/-- A run with accepted requests succeeds, with the requested limits, capped, and the fee of the
requested price at the limit it sets. -/
theorem processInstructions_of_budgetAccepted {requests : List ComputeBudgetInstruction}
    (h : budgetRequests instructions = requests.map some)
    (hAccepted : BudgetAccepted supportRequestUnitsDeprecated enableRequestHeapFrameIx
      supportSetLoadedAccountsDataSizeLimitIx requests) :
    processInstructions budget instructions defaultUnitsPerInstruction
        supportRequestUnitsDeprecated enableRequestHeapFrameIx
        supportSetLoadedAccountsDataSizeLimitIx =
      .ok (⟨computeUnitLimitOf defaultUnitsPerInstruction (requests.findSome? limitRequest)
            (nonBudgetCount instructions),
          (requests.findSome? heapRequest).or budget.heapSize,
          min ((requests.findSome? dataSizeRequest).getD maxLoadedAccountsDataSizeBytes)
            maxLoadedAccountsDataSizeBytes⟩,
        feeDetails (computeUnitLimitOf defaultUnitsPerInstruction (requests.findSome? limitRequest)
            (nonBudgetCount instructions)) (requests.findSome? priceRequest)) := by
  have hKinds : BudgetRequests.init.KindsOnce requests := by
    simp only [KindsOnce, BudgetRequests.init, Option.map_none, atMostOne_none]
    exact ⟨hAccepted.limit_once, hAccepted.price_once, hAccepted.heap_once, hAccepted.dataSize_once⟩
  have hLoop := (foldlM_requestInstruction_eq_ok instructions 0 BudgetRequests.init _).mpr
    ⟨requests, h, hAccepted.enabled, hKinds, rfl⟩
  have hFields := foldl_absorb_init h
  dsimp only at hFields
  generalize instructions.zipIdx.foldl absorb BudgetRequests.init = r at hLoop hFields
  obtain ⟨hLimit, hPrice, hHeap, hDataSize, hNum⟩ := hFields
  rw [findSome?_reverse_of_length_le_one hAccepted.limit_once] at hLimit
  rw [findSome?_reverse_of_length_le_one hAccepted.price_once] at hPrice
  rw [findSome?_reverse_of_length_le_one hAccepted.heap_once] at hHeap
  rw [findSome?_reverse_of_length_le_one hAccepted.dataSize_once] at hDataSize
  -- the limit the code computes is the one of the specification
  have hComputeUnitLimit : min ((if defaultUnitsPerInstruction then
        r.updatedComputeUnitLimit.orElse fun _ => some (saturatingMul 32
          r.numNonComputeBudgetInstructions defaultInstructionComputeUnitLimit)
      else r.updatedComputeUnitLimit).getD maxComputeUnitLimit) maxComputeUnitLimit =
      computeUnitLimitOf defaultUnitsPerInstruction (requests.findSome? limitRequest)
        (nonBudgetCount instructions) := by
    rw [hLimit, hNum, computeUnitLimitOf]
    exact min_getD_requestedLimit _ _ _ _ _
  -- the fee: a requested price is the price of a decoded instruction, so it fits a `u128`
  have hFee : (r.prioritizationFee.map fun feeType => PrioritizationFeeDetails.new feeType
      (computeUnitLimitOf defaultUnitsPerInstruction (requests.findSome? limitRequest)
        (nonBudgetCount instructions))).getD PrioritizationFeeDetails.default =
      feeDetails (computeUnitLimitOf defaultUnitsPerInstruction (requests.findSome? limitRequest)
        (nonBudgetCount instructions)) (requests.findSome? priceRequest) := by
    rw [hPrice]
    rcases hFound : requests.findSome? priceRequest with _ | feeType
    · rfl
    · obtain ⟨v, hv, hvPrice⟩ := List.exists_of_findSome?_eq_some hFound
      have hFits := fits_of_priceRequest (canonical_of_mem_budgetRequests h hv) hvPrice
      have hCap : computeUnitLimitOf defaultUnitsPerInstruction (requests.findSome? limitRequest)
          (nonBudgetCount instructions) < 2 ^ 128 :=
        lt_of_le_of_lt (min_le_right _ _) (by unfold maxComputeUnitLimit; norm_num)
      simp only [Option.map_some, Option.getD_some]
      exact PrioritizationFeeDetails.new_eq_feeDetails hFits hCap
  simp only [processInstructions, hLoop, bind_ok]
  rcases hr : r.requestedHeapSize with _ | ⟨bytes, i⟩
  · simp only [hr, Option.map_none] at hHeap
    simp only [← hHeap, Option.none_or, bind_ok, hComputeUnitLimit, hFee, hDataSize]
  · simp only [hr, Option.map_some] at hHeap
    have hValid := hAccepted.heap_valid bytes
      (List.mem_filterMap.mpr (List.exists_of_findSome?_eq_some hHeap.symm))
    have hCheck : (!enableRequestHeapFrameIx || decide (maxHeapFrameBytes < bytes) ||
        decide (bytes < minHeapFrameBytes) || bytes % 1024 != 0) = false := by
      simp only [hValid.1, Bool.not_true, Bool.false_or, Bool.or_eq_false_iff, decide_eq_false_iff_not,
        Nat.not_lt, bne_eq_false_iff_eq]
      exact ⟨⟨hValid.2.2.1, hValid.2.1⟩, hValid.2.2.2⟩
    simp only [hCheck, Bool.false_eq_true, if_false, bind_ok, ← hHeap, Option.some_or,
      hComputeUnitLimit, hFee, hDataSize]

end Run

/-- `process_instructions` succeeds exactly when every compute-budget instruction decodes to a
variant that its feature enables, no kind is asked for twice and a requested heap frame is a
multiple of 1024 from 32 KiB to 256 KiB that its feature allows; it then sets the requested
limits, capped, and returns the fee of the requested price at the limit it sets. -/
theorem processInstructions_spec (budget : ComputeBudget)
    (instructions : List (Pubkey × CompiledInstruction))
    (defaultUnitsPerInstruction supportRequestUnitsDeprecated enableRequestHeapFrameIx
      supportSetLoadedAccountsDataSizeLimitIx : Bool) :
    ((∃ result, processInstructions budget instructions defaultUnitsPerInstruction
        supportRequestUnitsDeprecated enableRequestHeapFrameIx
        supportSetLoadedAccountsDataSizeLimitIx = .ok result) ↔
      ∃ requests, budgetRequests instructions = requests.map some ∧
        BudgetAccepted supportRequestUnitsDeprecated enableRequestHeapFrameIx
          supportSetLoadedAccountsDataSizeLimitIx requests) ∧
    ∀ requests, budgetRequests instructions = requests.map some →
      BudgetAccepted supportRequestUnitsDeprecated enableRequestHeapFrameIx
        supportSetLoadedAccountsDataSizeLimitIx requests →
      processInstructions budget instructions defaultUnitsPerInstruction
          supportRequestUnitsDeprecated enableRequestHeapFrameIx
          supportSetLoadedAccountsDataSizeLimitIx =
        .ok (⟨computeUnitLimitOf defaultUnitsPerInstruction (requests.findSome? limitRequest)
              (nonBudgetCount instructions),
            (requests.findSome? heapRequest).or budget.heapSize,
            min ((requests.findSome? dataSizeRequest).getD maxLoadedAccountsDataSizeBytes)
              maxLoadedAccountsDataSizeBytes⟩,
          feeDetails (computeUnitLimitOf defaultUnitsPerInstruction
            (requests.findSome? limitRequest) (nonBudgetCount instructions))
            (requests.findSome? priceRequest)) :=
  ⟨⟨fun ⟨_, h⟩ => budgetAccepted_of_processInstructions h,
      fun ⟨_, h, hAccepted⟩ => ⟨_, processInstructions_of_budgetAccepted h hAccepted⟩⟩,
    fun _ h hAccepted => processInstructions_of_budgetAccepted h hAccepted⟩

/-- A limit of 200,000 units at 5,000 micro-lamports a unit, beside one other instruction: a fee
of 1,000 lamports. -/
theorem processInstructions_spec_price_fee :
    processInstructions ⟨maxComputeUnitLimit, none, maxLoadedAccountsDataSizeBytes⟩
        [(computeBudgetId, ⟨0, [], (setComputeUnitLimit 200000).encode⟩),
          (computeBudgetId, ⟨0, [], (setComputeUnitPrice 5000).encode⟩),
          (Pubkey.default, ⟨1, [], []⟩)] true true true true =
      .ok (⟨200000, none, 67108864⟩, ⟨1000, 5000⟩) :=
  ((processInstructions_spec _ _ true true true true).2
    [setComputeUnitLimit 200000, setComputeUnitPrice 5000] (by decide)
    ⟨by decide, by decide, by decide, by decide, by decide, by decide⟩).trans (by decide)

end PutValidator
