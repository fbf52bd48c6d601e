import PutValidator.Lib.KeyMap
import PutValidator.Lib.Word
import PutValidator.Sdk.Primitives

/-! The queue of recent blockhashes (`runtime/src/blockhash_queue.rs`). Each registered hash is
kept with the index of its registration and its fee, and `register_hash` drops the hashes older
than `max_age` once the queue holds `max_age` of them.

The ages the queue reports are exact: against `latestRegistration`, which says for each hash the
index of its latest registration (`0` for the genesis hash, `i` for the `i`-th call) and its fee,
a retained hash has the age of its latest registration and that registration's fee, a hash is
valid for an age up to `max_age` exactly when its latest registration is that young, and when no
hash is registered twice the queue holds exactly the hashes at most `max_age` old
(`blockhashQueue_ages`), as long as the run is shorter than `2^64` calls. Past that the `u64`
index wraps, and a hash kept since the start is reported younger than it is. A hash registered
again can outlive `max_age`: its entry is replaced, the queue holds fewer entries than
registrations, and the purge that only runs once the queue is full may not come. -/
namespace PutValidator

open Lib Lib.Word

/-- `HashAge`, less its `timestamp`, which none of these functions reads. -/
structure HashAge where
  /-- `fee_calculator.lamports_per_signature`. -/
  lamportsPerSignature : Nat
  hashIndex : Nat
deriving DecidableEq, Repr

/-- `BlockhashQueue`. `last_hash_index` is a `u64`: its increment and the ages taken from it
wrap, as in a release build. -/
structure BlockhashQueue where
  lastHashIndex : Nat
  lastHash : Option Hash
  /-- `ages`, a `HashMap<Hash, HashAge>`. -/
  ages : KeyMap Hash HashAge
  maxAge : Nat

namespace BlockhashQueue

def new (maxAge : Nat) : BlockhashQueue := ⟨0, none, .empty, maxAge⟩

def getLamportsPerSignature (q : BlockhashQueue) (hash : Hash) : Option Nat :=
  (q.ages.get? hash).map (·.lamportsPerSignature)

def isHashValid (q : BlockhashQueue) (hash : Hash) : Bool := (q.ages.get? hash).isSome

def isHashIndexValid (lastHashIndex maxAge hashIndex : Nat) : Bool :=
  decide (wrappingSub 64 lastHashIndex hashIndex ≤ maxAge)

def isHashValidForAge (q : BlockhashQueue) (hash : Hash) (maxAge : Nat) : Bool :=
  ((q.ages.get? hash).map fun age => isHashIndexValid q.lastHashIndex maxAge age.hashIndex).getD false

def getHashAge (q : BlockhashQueue) (hash : Hash) : Option Nat :=
  (q.ages.get? hash).map fun age => wrappingSub 64 q.lastHashIndex age.hashIndex

def genesisHash (q : BlockhashQueue) (hash : Hash) (lamportsPerSignature : Nat) : BlockhashQueue :=
  { q with ages := q.ages.insert hash ⟨lamportsPerSignature, 0⟩, lastHash := some hash }

def registerHash (q : BlockhashQueue) (hash : Hash) (lamportsPerSignature : Nat) : BlockhashQueue :=
  let lastHashIndex := wrappingAdd 64 q.lastHashIndex 1
  let ages := if q.maxAge ≤ q.ages.len then
      q.ages.retain fun _ age => isHashIndexValid lastHashIndex q.maxAge age.hashIndex
    else q.ages
  { lastHashIndex
    lastHash := some hash
    ages := ages.insert hash ⟨lamportsPerSignature, lastHashIndex⟩
    maxAge := q.maxAge }

/-- A new queue, an optional `genesis_hash`, then a run of `register_hash` calls. -/
def afterRegistrations (maxAge : Nat) (genesis : Option (Hash × Nat)) (regs : List (Hash × Nat)) :
    BlockhashQueue :=
  regs.foldl (fun q reg => q.registerHash reg.1 reg.2)
    (match genesis with
      | some (hash, lamportsPerSignature) => (new maxAge).genesisHash hash lamportsPerSignature
      | none => new maxAge)

theorem afterRegistrations_concat (maxAge : Nat) (genesis : Option (Hash × Nat))
    (regs : List (Hash × Nat)) (reg : Hash × Nat) :
    afterRegistrations maxAge genesis (regs ++ [reg]) =
      (afterRegistrations maxAge genesis regs).registerHash reg.1 reg.2 := by
  simp only [afterRegistrations, List.foldl_append, List.foldl_cons, List.foldl_nil]

end BlockhashQueue

/-! ### The registrations -/

/-- The index and fee of the latest registration of `hash`: `0` for the genesis hash, `i` for
the `i`-th call of the run. -/
def latestRegistration (genesis : Option (Hash × Nat)) (regs : List (Hash × Nat)) (hash : Hash) :
    Option (Nat × Nat) :=
  (regs.zipIdx 1).foldl (fun latest reg => if reg.1.1 = hash then some (reg.2, reg.1.2) else latest)
    (genesis.bind fun g => if g.1 = hash then some (0, g.2) else none)

section Registrations

variable {genesis : Option (Hash × Nat)}

theorem latestRegistration_concat (regs : List (Hash × Nat)) (reg : Hash × Nat) (hash : Hash) :
    latestRegistration genesis (regs ++ [reg]) hash =
      if reg.1 = hash then some (regs.length + 1, reg.2) else latestRegistration genesis regs hash := by
  simp [latestRegistration, List.zipIdx_append, Nat.add_comm]

/-- Registrations of other hashes leave the latest one alone. -/
theorem latestRegistration_append_of_forall_ne (regs more : List (Hash × Nat)) {hash : Hash}
    (hOther : ∀ reg ∈ more, reg.1 ≠ hash) :
    latestRegistration genesis (regs ++ more) hash = latestRegistration genesis regs hash := by
  induction more using List.reverseRecOn with
  | nil => simp
  | append_singleton more reg ih =>
      rw [← List.append_assoc, latestRegistration_concat,
        if_neg (hOther reg (by simp)), ih fun r hr => hOther r (by simp [hr])]

/-- The latest registration is no later than the run. -/
theorem latestRegistration_le {regs : List (Hash × Nat)} {hash : Hash} {j l : Nat}
    (h : latestRegistration genesis regs hash = some (j, l)) : j ≤ regs.length := by
  induction regs using List.reverseRecOn generalizing j l with
  | nil =>
      simp only [latestRegistration, List.zipIdx_nil, List.foldl_nil, Option.bind_eq_some_iff] at h
      obtain ⟨g, -, hg⟩ := h
      split_ifs at hg
      cases hg
      exact Nat.zero_le _
  | append_singleton regs reg ih =>
      rw [latestRegistration_concat] at h
      split_ifs at h
      · cases h
        simp
      · have := ih h
        simp
        omega

/-- With no hash registered twice, the `i`-th call is the latest registration of its hash. -/
theorem latestRegistration_getElem {regs : List (Hash × Nat)}
    (hDistinct : regs.Pairwise fun a b => a.1 ≠ b.1) (i : Nat) (hi : i < regs.length) :
    latestRegistration genesis regs regs[i].1 = some (i + 1, regs[i].2) := by
  have hSplit : regs = regs.take i ++ [regs[i]] ++ regs.drop (i + 1) := by
    rw [List.append_assoc, List.singleton_append, List.cons_getElem_drop_succ, List.take_append_drop]
  have hLater : ∀ reg ∈ regs.drop (i + 1), reg.1 ≠ regs[i].1 := by
    intro reg hReg
    obtain ⟨k, hk, rfl⟩ := List.mem_iff_getElem.mp hReg
    rw [List.getElem_drop]
    exact (List.pairwise_iff_getElem.mp hDistinct i (i + 1 + k) hi (by simp at hk; omega)
      (by omega)).symm
  have hRegs := congrArg (fun regs' => latestRegistration genesis regs' regs[i].1) hSplit
  rw [hRegs, latestRegistration_append_of_forall_ne _ _ hLater, latestRegistration_concat,
    if_pos rfl, List.length_take_of_le (Nat.le_of_lt hi)]

end Registrations

/-! ### The queue against its registrations -/

namespace BlockhashQueue

/-- What a queue says of the run that built it: the index is the number of calls, a retained
hash holds its latest registration, and a hash whose latest registration is at most `max_age`
old is retained. -/
structure Tracks (maxAge : Nat) (genesis : Option (Hash × Nat)) (regs : List (Hash × Nat))
    (q : BlockhashQueue) : Prop where
  lastHashIndex_eq : q.lastHashIndex = regs.length
  maxAge_eq : q.maxAge = maxAge
  get?_some : ∀ hash age, q.ages.get? hash = some age →
    latestRegistration genesis regs hash = some (age.hashIndex, age.lamportsPerSignature)
  young_mem : ∀ hash j l, latestRegistration genesis regs hash = some (j, l) →
    regs.length - j ≤ maxAge → q.ages.get? hash = some ⟨l, j⟩

theorem tracks_start (maxAge : Nat) (genesis : Option (Hash × Nat)) :
    Tracks maxAge genesis []
      (match genesis with
        | some (hash, lamportsPerSignature) => (new maxAge).genesisHash hash lamportsPerSignature
        | none => new maxAge) := by
  rcases genesis with _ | ⟨g, lg⟩
  · exact ⟨rfl, rfl, by simp [new], by simp [latestRegistration]⟩
  · refine ⟨rfl, rfl, fun hash age hAge => ?_, fun hash j l hLatest _ => ?_⟩
    · simp only [genesisHash, new, KeyMap.get?_insert, KeyMap.get?_empty] at hAge
      by_cases hEq : hash = g
      · subst hEq
        rw [if_pos rfl] at hAge
        cases hAge
        simp [latestRegistration]
      · rw [if_neg hEq] at hAge
        cases hAge
    · simp only [latestRegistration, List.zipIdx_nil, List.foldl_nil, Option.bind_some] at hLatest
      simp only [genesisHash, new, KeyMap.get?_insert, KeyMap.get?_empty]
      by_cases hEq : hash = g
      · subst hEq
        rw [if_pos rfl] at hLatest ⊢
        cases hLatest
        rfl
      · rw [if_neg (Ne.symm hEq)] at hLatest
        cases hLatest

/-- Below `2^64` calls the index does not wrap: it is the number of calls. -/
theorem Tracks.lastHashIndex_succ {maxAge : Nat} {genesis : Option (Hash × Nat)}
    {regs : List (Hash × Nat)} {q : BlockhashQueue} (h : Tracks maxAge genesis regs q)
    (hLen : regs.length + 1 < 2 ^ 64) : wrappingAdd 64 q.lastHashIndex 1 = regs.length + 1 := by
  rw [wrappingAdd, h.lastHashIndex_eq, Nat.mod_eq_of_lt hLen]

/-- `register_hash` keeps the queue in step with a run shorter than `2^64` calls. -/
theorem Tracks.registerHash {maxAge : Nat} {genesis : Option (Hash × Nat)} {regs : List (Hash × Nat)}
    {q : BlockhashQueue} (h : Tracks maxAge genesis regs q) (hLen : regs.length + 1 < 2 ^ 64)
    (reg : Hash × Nat) :
    Tracks maxAge genesis (regs ++ [reg]) (q.registerHash reg.1 reg.2) := by
  have hIndex := h.lastHashIndex_succ hLen
  -- what the purge keeps, whether or not it runs: every entry young at the new index
  have hKept : ∀ hash age,
      (if q.maxAge ≤ q.ages.len then
        q.ages.retain fun _ age =>
          isHashIndexValid (wrappingAdd 64 q.lastHashIndex 1) q.maxAge age.hashIndex
      else q.ages).get? hash = some age →
      q.ages.get? hash = some age := by
    intro hash age hAge
    split_ifs at hAge
    · rw [KeyMap.get?_retain] at hAge
      exact Option.eq_some_of_filter_eq_some hAge
    · exact hAge
  have hNewIndex : (q.registerHash reg.1 reg.2).lastHashIndex = regs.length + 1 := hIndex
  refine ⟨by rw [hNewIndex, List.length_append, List.length_singleton], h.maxAge_eq,
    fun hash age hAge => ?_, fun hash j l hLatest hYoung => ?_⟩
  · simp only [BlockhashQueue.registerHash, KeyMap.get?_insert] at hAge
    rw [latestRegistration_concat]
    by_cases hEq : hash = reg.1
    · subst hEq
      rw [if_pos rfl] at hAge
      cases hAge
      rw [if_pos rfl, hIndex]
    · rw [if_neg hEq] at hAge
      rw [if_neg (Ne.symm hEq)]
      exact h.get?_some hash age (hKept hash age hAge)
  · simp only [BlockhashQueue.registerHash, KeyMap.get?_insert]
    rw [latestRegistration_concat] at hLatest
    by_cases hEq : hash = reg.1
    · subst hEq
      rw [if_pos rfl] at hLatest ⊢
      cases hLatest
      rw [hIndex]
    · rw [if_neg (Ne.symm hEq)] at hLatest
      rw [if_neg hEq]
      have hLenApp : (regs ++ [reg]).length = regs.length + 1 := by simp
      rw [hLenApp] at hYoung
      have hOld := h.young_mem hash j l hLatest (by omega)
      have hj := latestRegistration_le hLatest
      split_ifs
      · rw [KeyMap.get?_retain, hOld, Option.filter_some, if_pos]
        simp only [isHashIndexValid, hIndex, wrappingSub_of_le (by omega : j ≤ regs.length + 1) hLen,
          h.maxAge_eq, decide_eq_true_eq]
        exact hYoung
      · exact hOld

theorem tracks_afterRegistrations (maxAge : Nat) (genesis : Option (Hash × Nat))
    {regs : List (Hash × Nat)} (hLen : regs.length < 2 ^ 64) :
    Tracks maxAge genesis regs (afterRegistrations maxAge genesis regs) := by
  induction regs using List.reverseRecOn with
  | nil => exact tracks_start maxAge genesis
  | append_singleton regs reg ih =>
      have hPrefix : regs.length + 1 < 2 ^ 64 := by simpa using hLen
      rw [afterRegistrations_concat]
      exact (ih (by omega)).registerHash hPrefix reg

/-- No retained hash is older than `max_age`. -/
def NoStale (maxAge : Nat) (regs : List (Hash × Nat)) (q : BlockhashQueue) : Prop :=
  ∀ hash age, q.ages.get? hash = some age → regs.length - age.hashIndex ≤ maxAge

theorem noStale_start (maxAge : Nat) (genesis : Option (Hash × Nat)) :
    NoStale maxAge []
      (match genesis with
        | some (hash, lamportsPerSignature) => (new maxAge).genesisHash hash lamportsPerSignature
        | none => new maxAge) := by
  intro hash age _
  simp

/-- The last `max_age` calls of a run with no hash registered twice are all in the queue, and
so the queue holds at least `max_age` entries. -/
theorem Tracks.maxAge_le_len {maxAge : Nat} {genesis : Option (Hash × Nat)}
    {regs : List (Hash × Nat)} {q : BlockhashQueue} (h : Tracks maxAge genesis regs q)
    (hDistinct : regs.Pairwise fun a b => a.1 ≠ b.1) (hLen : maxAge ≤ regs.length) :
    maxAge ≤ q.ages.len := by
  have hNodup : ((regs.drop (regs.length - maxAge)).map Prod.fst).Nodup :=
    (hDistinct.sublist (List.drop_sublist _ _)).map Prod.fst fun _ _ hNe => hNe
  have hPresent : ∀ hash ∈ (regs.drop (regs.length - maxAge)).map Prod.fst,
      (q.ages.get? hash).isSome := by
    intro hash hMem
    obtain ⟨reg, hReg, rfl⟩ := List.mem_map.mp hMem
    obtain ⟨k, hk, rfl⟩ := List.mem_iff_getElem.mp hReg
    rw [List.getElem_drop]
    have hIdx : regs.length - maxAge + k < regs.length := by simp at hk; omega
    have hYoung := h.young_mem _ _ _ (latestRegistration_getElem hDistinct _ hIdx) (by omega)
    simp [hYoung]
  have hCount := q.ages.length_le_len hNodup hPresent
  simp only [List.length_map, List.length_drop] at hCount
  omega

/-- With no hash registered twice, `register_hash` keeps every retained hash at most `max_age`
old: a hash `max_age + 1` old would be the oldest of `max_age + 1` retained ones, and the purge
runs on a queue of `max_age` entries. -/
theorem NoStale.registerHash {maxAge : Nat} {genesis : Option (Hash × Nat)}
    {regs : List (Hash × Nat)} {q : BlockhashQueue} (h : Tracks maxAge genesis regs q)
    (hStale : NoStale maxAge regs q) (hDistinct : regs.Pairwise fun a b => a.1 ≠ b.1)
    (hLen : regs.length + 1 < 2 ^ 64) (reg : Hash × Nat) :
    NoStale maxAge (regs ++ [reg]) (q.registerHash reg.1 reg.2) := by
  intro hash age hAge
  have hIndex := h.lastHashIndex_succ hLen
  simp only [BlockhashQueue.registerHash, KeyMap.get?_insert] at hAge
  have hLenApp : (regs ++ [reg]).length = regs.length + 1 := by simp
  rw [hLenApp]
  by_cases hEq : hash = reg.1
  · rw [if_pos hEq] at hAge
    cases hAge
    rw [hIndex, Nat.sub_self]
    exact Nat.zero_le _
  rw [if_neg hEq] at hAge
  split_ifs at hAge with hFull
  · -- the purge ran and kept only the young
    rw [KeyMap.get?_retain, Option.filter_eq_some_iff] at hAge
    have hj := latestRegistration_le (h.get?_some hash age hAge.1)
    have hValid := hAge.2
    simp only [isHashIndexValid, decide_eq_true_eq, hIndex, h.maxAge_eq,
      wrappingSub_of_le (by omega : age.hashIndex ≤ regs.length + 1) hLen] at hValid
    exact hValid
  · -- no purge: the queue was not full, so nothing in it was `max_age` old
    have hOld := hStale hash age hAge
    have hj := latestRegistration_le (h.get?_some hash age hAge)
    by_contra hTooOld
    have hFullNow := h.maxAge_le_len hDistinct (by omega)
    rw [h.maxAge_eq] at hFull
    exact hFull hFullNow

theorem noStale_afterRegistrations (maxAge : Nat) (genesis : Option (Hash × Nat)) :
    ∀ {regs : List (Hash × Nat)}, regs.Pairwise (fun a b => a.1 ≠ b.1) → regs.length < 2 ^ 64 →
      NoStale maxAge regs (afterRegistrations maxAge genesis regs) := by
  intro regs
  induction regs using List.reverseRecOn with
  | nil => intro _ _; exact noStale_start maxAge genesis
  | append_singleton regs reg ih =>
      intro hDistinct hLen
      have hPrefix := (List.pairwise_append.mp hDistinct).1
      have hLenPrefix : regs.length + 1 < 2 ^ 64 := by simpa using hLen
      rw [afterRegistrations_concat]
      exact (ih hPrefix (by omega)).registerHash
        (tracks_afterRegistrations maxAge genesis (by omega)) hPrefix hLenPrefix reg

end BlockhashQueue

/-- The ages the queue reports after a new queue, an optional genesis hash and a run of fewer
than `2^64` `register_hash` calls: a retained hash is as old as its latest registration, which
set its fee; a hash is valid for an age up to `max_age` exactly when its latest registration is
that young; and with no hash registered twice, the queue holds exactly the hashes at most
`max_age` old. -/
theorem blockhashQueue_ages (maxAge : Nat) (genesis : Option (Hash × Nat)) (regs : List (Hash × Nat))
    (hLen : regs.length < 2 ^ 64) :
    let q := BlockhashQueue.afterRegistrations maxAge genesis regs
    (∀ hash age, q.getHashAge hash = some age →
      ∃ j l, latestRegistration genesis regs hash = some (j, l) ∧ age = regs.length - j) ∧
    (∀ hash a, a ≤ maxAge → (q.isHashValidForAge hash a = true ↔
      ∃ j l, latestRegistration genesis regs hash = some (j, l) ∧ regs.length - j ≤ a)) ∧
    (∀ hash l, q.getLamportsPerSignature hash = some l →
      ∃ j, latestRegistration genesis regs hash = some (j, l)) ∧
    (regs.Pairwise (fun a b => a.1 ≠ b.1) → ∀ hash, (q.isHashValid hash = true ↔
      ∃ j l, latestRegistration genesis regs hash = some (j, l) ∧ regs.length - j ≤ maxAge)) := by
  intro q
  have hT : BlockhashQueue.Tracks maxAge genesis regs q :=
    BlockhashQueue.tracks_afterRegistrations maxAge genesis hLen
  -- a retained hash was registered within the run, so its age is a plain difference
  have hAgeOf : ∀ hash v, q.ages.get? hash = some v →
      wrappingSub 64 q.lastHashIndex v.hashIndex = regs.length - v.hashIndex := fun hash v hv => by
    rw [hT.lastHashIndex_eq]
    exact wrappingSub_of_le (latestRegistration_le (hT.get?_some hash v hv)) hLen
  refine ⟨fun hash age hAge => ?_, fun hash a ha => ?_, fun hash l hFee => ?_,
    fun hDistinct hash => ?_⟩
  · obtain ⟨v, hv, rfl⟩ := Option.map_eq_some_iff.mp hAge
    exact ⟨v.hashIndex, v.lamportsPerSignature, hT.get?_some hash v hv, hAgeOf hash v hv⟩
  · unfold BlockhashQueue.isHashValidForAge
    cases hGet : q.ages.get? hash with
    | none =>
        simp only [Option.map_none, Option.getD_none, Bool.false_eq_true, false_iff]
        rintro ⟨j, l, hLatest, hYoung⟩
        rw [hT.young_mem hash j l hLatest (le_trans hYoung ha)] at hGet
        cases hGet
    | some v =>
        simp only [Option.map_some, Option.getD_some, BlockhashQueue.isHashIndexValid,
          decide_eq_true_eq, hAgeOf hash v hGet]
        rw [hT.get?_some hash v hGet]
        constructor
        · intro hYoung
          exact ⟨_, _, rfl, hYoung⟩
        · rintro ⟨j, l, hEq, hYoung⟩
          cases hEq
          exact hYoung
  · obtain ⟨v, hv, rfl⟩ := Option.map_eq_some_iff.mp hFee
    exact ⟨v.hashIndex, hT.get?_some hash v hv⟩
  · have hStale : BlockhashQueue.NoStale maxAge regs q :=
      BlockhashQueue.noStale_afterRegistrations maxAge genesis hDistinct hLen
    unfold BlockhashQueue.isHashValid
    constructor
    · intro hValid
      obtain ⟨v, hv⟩ := Option.isSome_iff_exists.mp hValid
      exact ⟨_, _, hT.get?_some hash v hv, hStale hash v hv⟩
    · rintro ⟨j, l, hLatest, hYoung⟩
      simp [hT.young_mem hash j l hLatest hYoung]

/-- A genesis hash and two calls with a queue of age 1: the genesis hash, two calls old, is
gone. -/
theorem blockhashQueue_ages_genesis_dropped :
    (BlockhashQueue.afterRegistrations 1 (some (Hash.default, 5))
        [(⟨Vector.replicate 32 1⟩, 6), (⟨Vector.replicate 32 2⟩, 7)]).isHashValid Hash.default = false ∧
    ([(⟨Vector.replicate 32 1⟩, 6), (⟨Vector.replicate 32 2⟩, 7)] : List (Hash × Nat)).length < 2 ^ 64 ∧
    let q := BlockhashQueue.afterRegistrations 1 (some (Hash.default, 5))
      [(⟨Vector.replicate 32 1⟩, 6), (⟨Vector.replicate 32 2⟩, 7)]
    let regs : List (Hash × Nat) := [(⟨Vector.replicate 32 1⟩, 6), (⟨Vector.replicate 32 2⟩, 7)]
    (∀ hash age, q.getHashAge hash = some age →
      ∃ j l, latestRegistration (some (Hash.default, 5)) regs hash = some (j, l) ∧
        age = regs.length - j) ∧
    (∀ hash a, a ≤ 1 → (q.isHashValidForAge hash a = true ↔
      ∃ j l, latestRegistration (some (Hash.default, 5)) regs hash = some (j, l) ∧
        regs.length - j ≤ a)) ∧
    (∀ hash l, q.getLamportsPerSignature hash = some l →
      ∃ j, latestRegistration (some (Hash.default, 5)) regs hash = some (j, l)) ∧
    (regs.Pairwise (fun a b => a.1 ≠ b.1) → ∀ hash, (q.isHashValid hash = true ↔
      ∃ j l, latestRegistration (some (Hash.default, 5)) regs hash = some (j, l) ∧
        regs.length - j ≤ 1)) :=
  ⟨by decide, by decide, blockhashQueue_ages 1 _ _ (by decide)⟩

/-- Registering one other hash over and over with `max_age = usize::MAX` drops nothing, since
every `u64` age is within it: the genesis hash stays, and the index counts the calls modulo
`2^64`. -/
theorem BlockhashQueue.afterRegistrations_replicate {g h : Hash} (hNe : h ≠ g) (lg l n : Nat) :
    let q := BlockhashQueue.afterRegistrations (maxValue 64) (some (g, lg)) (List.replicate n (h, l))
    q.lastHashIndex = n % 2 ^ 64 ∧ q.maxAge = maxValue 64 ∧ q.ages.get? g = some ⟨lg, 0⟩ := by
  induction n with
  | zero =>
      refine ⟨(Nat.zero_mod _).symm, rfl, ?_⟩
      simp [BlockhashQueue.afterRegistrations, BlockhashQueue.genesisHash, BlockhashQueue.new]
  | succ n ih =>
      obtain ⟨hIndex, hMaxAge, hGenesis⟩ := ih
      dsimp only
      rw [List.replicate_succ', BlockhashQueue.afterRegistrations_concat]
      refine ⟨?_, hMaxAge, ?_⟩
      · show wrappingAdd 64 _ 1 = _
        rw [wrappingAdd, hIndex, Nat.mod_add_mod]
      · -- the purge, if it runs, keeps an entry of any `u64` age
        simp only [BlockhashQueue.registerHash, Lib.KeyMap.get?_insert, if_neg (Ne.symm hNe)]
        split_ifs
        · rw [Lib.KeyMap.get?_retain, hGenesis, Option.filter_some, if_pos]
          rw [BlockhashQueue.isHashIndexValid, hMaxAge, decide_eq_true_eq, maxValue]
          exact Nat.le_sub_one_of_lt (Nat.mod_lt _ (Nat.two_pow_pos 64))
        · exact hGenesis

/-- After `2^64` registrations of another hash, the `u64` index has wrapped to 0: the genesis
hash, registered `2^64` calls ago and kept under `max_age = usize::MAX`, is reported 0 old. -/
theorem blockhashQueue_genesis_age_wraps :
    latestRegistration (some (Hash.default, 5))
        (List.replicate (2 ^ 64) ((⟨Vector.replicate 32 1⟩ : Hash), 6)) Hash.default = some (0, 5) ∧
      (List.replicate (2 ^ 64) ((⟨Vector.replicate 32 1⟩ : Hash), 6)).length - 0 = 2 ^ 64 ∧
      (BlockhashQueue.afterRegistrations (maxValue 64) (some (Hash.default, 5))
        (List.replicate (2 ^ 64) ((⟨Vector.replicate 32 1⟩ : Hash), 6))).getHashAge Hash.default =
        some 0 := by
  have hNe : (⟨Vector.replicate 32 1⟩ : Hash) ≠ Hash.default := by decide
  obtain ⟨hIndex, -, hGenesis⟩ := BlockhashQueue.afterRegistrations_replicate hNe 5 6 (2 ^ 64)
  refine ⟨?_, by rw [List.length_replicate, Nat.sub_zero], ?_⟩
  · have hOther : ∀ reg ∈ List.replicate (2 ^ 64) ((⟨Vector.replicate 32 1⟩ : Hash), 6),
        reg.1 ≠ Hash.default := fun reg hReg => (List.eq_of_mem_replicate hReg) ▸ hNe
    rw [← List.nil_append (List.replicate (2 ^ 64) _),
      latestRegistration_append_of_forall_ne _ _ hOther]
    rfl
  · rw [BlockhashQueue.getHashAge, hGenesis, Option.map_some, hIndex, Nat.mod_self]
    exact congrArg some (wrappingSub_of_le (Nat.le_refl 0) (Nat.two_pow_pos 64))

end PutValidator
