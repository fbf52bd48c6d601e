import Mathlib
import PutValidator.Lib.MerklePath
import PutValidator.Lib.Word
import PutValidator.Sdk.Primitives

/-! The Merkle tree of an erasure batch of shreds (`ledger/src/shred/merkle.rs`).
`make_merkle_tree` lays the levels out one after the other in one vector, `make_merkle_proof`
reads the sibling of each level at its offset, and `get_merkle_root` climbs from a leaf with the
proof. The vector is the levels of `Lib.MerklePath` laid out in order (`makeMerkleTree_eq`), the
proof is the path of the leaf (`makeMerkleProof_eq`) and the climb is the path's climb, so that
every leaf's proof leads to the root, with `get_proof_size` entries (`merkleProof_complete`).
The hash is a parameter, so none of this rests on a property of SHA-256. -/
namespace PutValidator

open Lib.MerklePath Lib.Word

/-- `MerkleProofEntry`, `[u8; SIZE_OF_MERKLE_PROOF_ENTRY]`. -/
abbrev MerkleProofEntry := Vector UInt8 20

/-- `MERKLE_HASH_PREFIX_NODE`, `b"\x01PUT_MERKLE_SHREDS_NODE"`. -/
def merkleHashPrefixNode : List UInt8 :=
  [1, 80, 85, 84, 95, 77, 69, 82, 75, 76, 69, 95, 83, 72, 82, 69, 68, 83, 95, 78, 79, 68, 69]

/-- The errors of `shred::Error` that the Merkle proof returns. -/
inductive ShredError
  | invalidMerkleProof
deriving DecidableEq, Repr

/-- `&hash.as_ref()[..SIZE_OF_MERKLE_PROOF_ENTRY]`: the first 20 bytes of a hash. -/
def Hash.proofEntry (h : Hash) : MerkleProofEntry :=
  Vector.ofFn fun i => h.bytes.get (i.castLE (by decide))

/-- `get_proof_size`: `usize::BITS - num_shreds.leading_zeros()` is the bit length of
`num_shreds`, one less for a power of two. -/
def getProofSize (numShreds : Nat) : Nat :=
  let bits := numShreds.size
  if isPowerOfTwo numShreds then bits - 1 else bits

section Tree

variable (sha256 : List UInt8 → Hash)

/-- `join_nodes`, on the first 20 bytes of each node: those of a hash, all of a proof entry. -/
def joinNodes (node other : MerkleProofEntry) : Hash :=
  sha256 (merkleHashPrefixNode ++ node.toList ++ other.toList)

/-- `get_merkle_root`: the climb from a leaf, joining on the side the parity of the index gives;
it fails unless the index has come down to 0. -/
def getMerkleRoot (index : Nat) (node : Hash) (proof : List MerkleProofEntry) :
    Except ShredError Hash :=
  let climbed := proof.foldl (fun (state : Nat × Hash) other =>
    let parent := if state.1 % 2 = 0 then joinNodes sha256 state.2.proofEntry other
      else joinNodes sha256 other state.2.proofEntry
    (state.1 >>> 1, parent)) (index, node)
  if climbed.1 = 0 then .ok climbed.2 else .error .invalidMerkleProof

/-- The parents that the inner loop of `make_merkle_tree` pushes for the level of `size` nodes
at `offset`: node `index` joined with node `index + 1`, or with itself at the end of an odd
level. The loop reads only the level, which the pushes leave as it is. -/
def pushParents (nodes : List Hash) (offset size : Nat) : List Hash :=
  (List.range' offset ((size + 1) / 2) 2).map fun index =>
    joinNodes sha256 (nodes.getD index default).proofEntry
      (nodes.getD (min (index + 1) (offset + size - 1)) default).proofEntry

/-- The outer loop of `make_merkle_tree`, at the level of the last `size` nodes. -/
def makeMerkleTreeLoop (nodes : List Hash) (size : Nat) : List Hash :=
  if 1 < size then
    let offset := nodes.length - size
    let nodes' := nodes ++ pushParents sha256 nodes offset size
    makeMerkleTreeLoop nodes' (nodes'.length - offset - size)
  else nodes
termination_by size
decreasing_by simp only [pushParents, List.length_append, List.length_map, List.length_range']; omega

def makeMerkleTree (nodes : List Hash) : List Hash := makeMerkleTreeLoop sha256 nodes nodes.length

end Tree

/-- The loop of `make_merkle_proof`: the sibling at each level, from the level of `size` nodes
at `offset` up, and the check that the walk ends at the root, the last node. -/
def makeMerkleProofLoop (tree : List Hash) (index size offset : Nat)
    (proof : List MerkleProofEntry) : Option (List MerkleProofEntry) :=
  if 1 < size then do
    let node ← tree[offset + min (index ^^^ 1) (size - 1)]?
    makeMerkleProofLoop tree (index >>> 1) ((size + 1) >>> 1) (offset + size)
      (proof ++ [node.proofEntry])
  else if offset + 1 = tree.length then some proof else none
termination_by size
decreasing_by simp only [Nat.shiftRight_eq_div_pow]; omega

/-- `make_merkle_proof`. -/
def makeMerkleProof (index size : Nat) (tree : List Hash) : Option (List MerkleProofEntry) :=
  if size ≤ index then none else makeMerkleProofLoop tree index size 0 []

/-! ### The tree is the levels of `Lib.MerklePath` -/

section Layout

variable (sha256 : List UInt8 → Hash)

/-- Two nodes joined as the tree joins them, on the first 20 bytes of each. -/
def joinHashes (node other : Hash) : Hash := joinNodes sha256 node.proofEntry other.proofEntry

theorem pushParents_eq {pre level : List Hash} :
    pushParents sha256 (pre ++ level) pre.length level.length = parents (joinHashes sha256) level := by
  apply List.ext_getElem
  · simp [pushParents, length_parents]
  · intro j hLeft hRight
    have hj : 2 * j < level.length := by
      simp only [pushParents, List.length_map, List.length_range'] at hLeft
      omega
    rw [← List.getD_eq_getElem (parents (joinHashes sha256) level) default hRight,
      getD_parents _ default level j hj]
    simp only [pushParents, List.getElem_map, List.getElem_range']
    rw [List.getD_append_right _ _ _ _ (by omega), List.getD_append_right _ _ _ _ (by omega)]
    simp only [joinHashes]
    congr 3 <;> omega

/-- The outer loop from a level at the end of the vector appends the levels above it. -/
theorem makeMerkleTreeLoop_eq : ∀ (level pre : List Hash),
    makeMerkleTreeLoop sha256 (pre ++ level) level.length =
      pre ++ (levels (joinHashes sha256) level).flatten
  | level, pre => by
      rw [makeMerkleTreeLoop]
      by_cases hLen : 1 < level.length
      · rw [if_pos hLen, levels_of_one_lt _ hLen]
        simp only [List.length_append, Nat.add_sub_cancel, pushParents_eq]
        have hSize : pre.length + level.length + (parents (joinHashes sha256) level).length -
            pre.length - level.length = (parents (joinHashes sha256) level).length := by omega
        rw [hSize, makeMerkleTreeLoop_eq (parents (joinHashes sha256) level) (pre ++ level)]
        simp
      · rw [if_neg hLen, levels_of_le_one _ (by omega)]
        simp
termination_by level => level.length
decreasing_by rw [length_parents]; omega

theorem makeMerkleTree_eq (leaves : List Hash) :
    makeMerkleTree sha256 leaves = (levels (joinHashes sha256) leaves).flatten := by
  rw [makeMerkleTree]
  simpa using makeMerkleTreeLoop_eq sha256 leaves []

/-- The proof loop, at a level at `offset` of a vector that holds from there the levels above,
reads the sibling of the node at `index` of each level. -/
theorem makeMerkleProofLoop_eq : ∀ (level pre : List Hash) (index : Nat)
    (proof : List MerkleProofEntry), index < level.length →
    makeMerkleProofLoop (pre ++ (levels (joinHashes sha256) level).flatten) index level.length
        pre.length proof =
      some (proof ++ (path (joinHashes sha256) default level index).map Hash.proofEntry)
  | level, pre, index, proof, hIndex => by
      rw [makeMerkleProofLoop]
      by_cases hLen : 1 < level.length
      · rw [if_pos hLen, levels_of_one_lt _ hLen, path, if_pos hLen]
        have hSibling : (pre ++ (level :: levels (joinHashes sha256)
            (parents (joinHashes sha256) level)).flatten)[pre.length +
              min (index ^^^ 1) (level.length - 1)]? =
            some (sibling default level index) := by
          rw [List.flatten_cons, ← List.append_assoc, List.getElem?_append_left (by simp; omega),
            List.getElem?_append_right (by omega)]
          simp only [Nat.add_sub_cancel_left, sibling]
          rw [List.getD_eq_getElem?_getD, List.getElem?_eq_getElem (by omega)]
          rfl
        have hNext := makeMerkleProofLoop_eq (parents (joinHashes sha256) level) (pre ++ level)
          (index / 2) (proof ++ [(sibling default level index).proofEntry])
          (by rw [length_parents]; omega)
        simp only [hSibling, Option.bind_eq_bind, Option.bind_some, Nat.shiftRight_eq_div_pow,
          pow_one]
        rw [length_parents] at hNext
        simpa [List.flatten_cons, List.append_assoc] using hNext
      · obtain ⟨x, rfl⟩ := List.length_eq_one_iff.mp (show level.length = 1 by omega)
        rw [if_neg hLen, levels_of_le_one _ (by simp), path, if_neg hLen]
        simp
termination_by level => level.length
decreasing_by rw [length_parents]; omega

theorem makeMerkleProof_eq {leaves : List Hash} {index : Nat} (hIndex : index < leaves.length) :
    makeMerkleProof index leaves.length (makeMerkleTree sha256 leaves) =
      some ((path (joinHashes sha256) default leaves index).map Hash.proofEntry) := by
  rw [makeMerkleProof, if_neg (by omega), makeMerkleTree_eq]
  simpa using makeMerkleProofLoop_eq sha256 leaves [] index [] hIndex

/-- `get_merkle_root` of the entries of a list of hashes is the climb over those hashes. -/
theorem getMerkleRoot_map_proofEntry (index : Nat) (node : Hash) (others : List Hash) :
    getMerkleRoot sha256 index node (others.map Hash.proofEntry) =
      let climbed := others.foldl (climb (joinHashes sha256)) (index, node)
      if climbed.1 = 0 then .ok climbed.2 else .error .invalidMerkleProof := by
  simp only [getMerkleRoot, List.foldl_map, Nat.shiftRight_eq_div_pow, pow_one]
  rfl

end Layout

/-- `get_proof_size` is `⌈log₂ n⌉`: the bit length, one less for a power of two. -/
theorem getProofSize_eq_clog (n : Nat) : getProofSize n = Nat.clog 2 n := by
  unfold getProofSize
  dsimp only
  split_ifs with hPow
  · obtain ⟨k, rfl⟩ := isPowerOfTwo_iff.mp hPow
    rw [Nat.size_pow, Nat.clog_pow 2 k (by decide), Nat.add_sub_cancel]
  · rcases Nat.eq_zero_or_pos n with rfl | hn
    · rfl
    · -- `n` lies strictly between the powers of two around its bit length
      have hSizePos : 0 < n.size := Nat.size_pos.mpr hn
      have hLow : 2 ^ (n.size - 1) ≤ n := Nat.lt_size.mp (by omega)
      have hNe : 2 ^ (n.size - 1) ≠ n := fun h => hPow (isPowerOfTwo_iff.mpr ⟨_, h.symm⟩)
      apply le_antisymm
      · have hClog := (Nat.lt_clog_iff_pow_lt (b := 2) (by decide)).mpr (lt_of_le_of_ne hLow hNe)
        omega
      · exact (Nat.clog_le_iff_le_pow (by decide)).mpr (Nat.lt_size_self n).le

/-- For a batch of `n ≥ 1` shreds, an index past the leaves has no proof, and every leaf has a
proof of `get_proof_size n = ⌈log₂ n⌉` entries that leads from the leaf to the root, the last
node of the tree; a proof of `k` entries rejects every index from `2 ^ k` on. -/
theorem merkleProof_complete (sha256 : List UInt8 → Hash) (n : Nat) (hn : 1 ≤ n)
    (leaves : List Hash) (hLen : leaves.length = n) :
    (∀ i, n ≤ i → makeMerkleProof i n (makeMerkleTree sha256 leaves) = none) ∧
    ∀ i, i < n → ∃ proof root,
      makeMerkleProof i n (makeMerkleTree sha256 leaves) = some proof ∧
      proof.length = getProofSize n ∧ getProofSize n = Nat.clog 2 n ∧
      (makeMerkleTree sha256 leaves).getLast? = some root ∧
      getMerkleRoot sha256 i (leaves.getD i default) proof = .ok root ∧
      ∀ index node, 2 ^ proof.length ≤ index →
        getMerkleRoot sha256 index node proof = .error .invalidMerkleProof := by
  subst hLen
  refine ⟨fun i hi => by rw [makeMerkleProof, if_pos hi], fun i hi => ?_⟩
  have hLeaves : leaves ≠ [] := List.ne_nil_of_length_pos (by omega)
  refine ⟨(path (joinHashes sha256) default leaves i).map Hash.proofEntry,
    root (joinHashes sha256) default leaves, makeMerkleProof_eq sha256 hi, ?_,
    getProofSize_eq_clog _, ?_, ?_, ?_⟩
  · rw [List.length_map, length_path, getProofSize_eq_clog]
  · rw [makeMerkleTree_eq]
    exact getLast?_flatten_levels _ _ leaves hLeaves
  · rw [getMerkleRoot_map_proofEntry, foldl_climb_path _ _ leaves i hi]
    rfl
  · -- the climb ends at index `index / 2 ^ k`, which is not 0
    intro index node hIndex
    rw [List.length_map] at hIndex
    have hFst : ((path (joinHashes sha256) default leaves i).foldl (climb (joinHashes sha256))
        (index, node)).1 = index / 2 ^ (path (joinHashes sha256) default leaves i).length :=
      foldl_climb_fst (joinHashes sha256) _ (index, node)
    have hPos := Nat.two_pow_pos (path (joinHashes sha256) default leaves i).length
    have hNonzero : index / 2 ^ (path (joinHashes sha256) default leaves i).length ≠ 0 := by
      rw [Ne, Nat.div_eq_zero_iff]
      omega
    rw [getMerkleRoot_map_proofEntry]
    simp only [hFst, hNonzero, if_false]

/-- Three leaves, any hash: each leaf has a proof of two entries. -/
theorem merkleProof_complete_three_leaves :
    let sha256 : List UInt8 → Hash := fun _ => Hash.default
    let leaves := [Hash.default, Hash.default, Hash.default]
    (∀ i, 3 ≤ i → makeMerkleProof i 3 (makeMerkleTree sha256 leaves) = none) ∧
    ∀ i, i < 3 → ∃ proof root,
      makeMerkleProof i 3 (makeMerkleTree sha256 leaves) = some proof ∧
      proof.length = getProofSize 3 ∧ getProofSize 3 = Nat.clog 2 3 ∧
      (makeMerkleTree sha256 leaves).getLast? = some root ∧
      getMerkleRoot sha256 i (leaves.getD i default) proof = .ok root ∧
      ∀ index node, 2 ^ proof.length ≤ index →
        getMerkleRoot sha256 index node proof = .error .invalidMerkleProof :=
  merkleProof_complete (fun _ => Hash.default) 3 (by decide) _ rfl

end PutValidator
