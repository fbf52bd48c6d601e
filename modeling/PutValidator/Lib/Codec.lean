import Mathlib
import PutValidator.Lib.Word

/-! Byte codecs. A codec pairs an encoder with a decoder that reads a prefix of its input and
returns the value with the rest of the input, and carries its two laws: the decoder reads back
the encoding of every canonical value, and whatever the decoder reads is the encoding of a
canonical value. The codec of a layout is built from the codecs of its parts: bytes, fixed
arrays, pairs, a change of representation, and a list behind its length. -/
namespace Lib.Codec

/-- Reads a prefix of the input and returns the value read with the rest of the input. -/
abbrev Decoder (α : Type) := List UInt8 → Option (α × List UInt8)

structure Codec (α : Type) where
  encode : α → List UInt8
  decode : Decoder α
  /-- The values the decoder returns. -/
  Canonical : α → Prop
  decode_encode : ∀ a rest, Canonical a → decode (encode a ++ rest) = some (a, rest)
  decode_sound : ∀ {input a rest}, decode input = some (a, rest) →
    Canonical a ∧ input = encode a ++ rest

/-- `n` values read one after the other. -/
def decodeCount {α : Type} (d : Decoder α) : Nat → Decoder (List α)
  | 0, input => some ([], input)
  | n + 1, input =>
      (d input).bind fun read =>
        (decodeCount d n read.2).bind fun reads => some (read.1 :: reads.1, reads.2)

section FixedWidth

/-! Values encoded in `k` elements each and laid one after the other: where the `i`-th one
starts and what the first `n` of them fill. -/

variable {α β : Type} {f : α → List β} {k : Nat}

theorem length_flatMap_of_length_eq (hf : ∀ a, (f a).length = k) (l : List α) :
    (l.flatMap f).length = k * l.length := by
  induction l with
  | nil => rfl
  | cons a l ih =>
      rw [List.flatMap_cons, List.length_append, hf, ih, List.length_cons, Nat.mul_succ,
        Nat.add_comm]

theorem take_flatMap_of_length_eq (hf : ∀ a, (f a).length = k) {l : List α} {n : Nat}
    (hn : n ≤ l.length) (rest : List β) :
    (l.flatMap f ++ rest).take (k * n) = (l.take n).flatMap f := by
  induction l generalizing n with
  | nil =>
      obtain rfl : n = 0 := Nat.le_zero.mp hn
      simp
  | cons a l ih =>
      cases n with
      | zero => simp
      | succ n =>
          have hTail := ih (Nat.le_of_succ_le_succ hn)
          rw [List.flatMap_cons, List.append_assoc, show k * (n + 1) = (f a).length + k * n by
            rw [hf, Nat.mul_succ, Nat.add_comm], List.take_length_add_append, hTail]
          rfl

theorem drop_take_flatMap_of_length_eq (hf : ∀ a, (f a).length = k) {l : List α} {i : Nat}
    (hi : i < l.length) (rest : List β) :
    ((l.flatMap f ++ rest).drop (k * i)).take k = f l[i] := by
  induction l generalizing i with
  | nil => exact absurd hi (Nat.not_lt_zero i)
  | cons a l ih =>
      cases i with
      | zero =>
          rw [Nat.mul_zero, List.drop_zero, List.flatMap_cons, List.append_assoc]
          exact List.take_left' (hf a)
      | succ i =>
          have hNext := ih (Nat.lt_of_succ_lt_succ hi)
          rw [List.flatMap_cons, List.append_assoc, show k * (i + 1) = (f a).length + k * i by
            rw [hf, Nat.mul_succ, Nat.add_comm], List.drop_length_add_append, hNext]
          rfl

end FixedWidth

namespace Codec

variable {α β : Type}

theorem decodeCount_encode (c : Codec α) {l : List α} (hl : ∀ a ∈ l, c.Canonical a)
    (rest : List UInt8) :
    decodeCount c.decode l.length (l.flatMap c.encode ++ rest) = some (l, rest) := by
  induction l with
  | nil => rfl
  | cons a l ih =>
      have hTail := ih fun b hb => hl b (List.mem_cons_of_mem a hb)
      simp only [List.length_cons, List.flatMap_cons, List.append_assoc, decodeCount,
        c.decode_encode a _ (hl a List.mem_cons_self), Option.bind_some, hTail]

theorem decodeCount_sound (c : Codec α) {n : Nat} {input rest : List UInt8} {l : List α}
    (h : decodeCount c.decode n input = some (l, rest)) :
    l.length = n ∧ (∀ a ∈ l, c.Canonical a) ∧ input = l.flatMap c.encode ++ rest := by
  induction n generalizing input l with
  | zero =>
      simp only [decodeCount, Option.some.injEq, Prod.mk.injEq] at h
      obtain ⟨rfl, rfl⟩ := h
      exact ⟨rfl, by simp, rfl⟩
  | succ n ih =>
      simp only [decodeCount, Option.bind_eq_some_iff, Option.some.injEq, Prod.mk.injEq] at h
      obtain ⟨⟨a, mid⟩, hHead, ⟨l', rest'⟩, hTail, rfl, rfl⟩ := h
      obtain ⟨hCanonical, rfl⟩ := c.decode_sound hHead
      obtain ⟨hLength, hAll, rfl⟩ := ih hTail
      refine ⟨by simp [hLength], ?_, by simp⟩
      intro b hb
      rcases List.mem_cons.mp hb with rfl | hb
      · exact hCanonical
      · exact hAll b hb

end Codec

open Codec

/-- One byte. -/
def byte : Codec UInt8 where
  encode b := [b]
  decode
    | [] => none
    | b :: rest => some (b, rest)
  Canonical _ := True
  decode_encode _ _ _ := rfl
  decode_sound := by
    intro input a rest h
    cases input with
    | nil => cases h
    | cons b bs =>
        cases h
        exact ⟨trivial, rfl⟩

/-- A `bool`: one byte, `1` for true and `0` for false; any other byte is refused. -/
def bool : Codec Bool where
  encode b := [if b then 1 else 0]
  decode
    | [] => none
    | b :: rest => if b = 1 then some (true, rest) else if b = 0 then some (false, rest) else none
  Canonical _ := True
  decode_encode b _ _ := by cases b <;> rfl
  decode_sound := by
    intro input a rest h
    cases input with
    | nil => cases h
    | cons b bs =>
        simp only at h
        split at h
        · cases h
          exact ⟨trivial, by simp_all⟩
        · split at h
          · cases h
            exact ⟨trivial, by simp_all⟩
          · cases h

/-- An array of `n` bytes, written as they are. -/
def fixed (n : Nat) : Codec (Vector UInt8 n) where
  encode v := v.toList
  decode input :=
    if h : n ≤ input.length then
      some (⟨(input.take n).toArray, by simp [Nat.min_eq_left h]⟩, input.drop n)
    else none
  Canonical _ := True
  decode_encode := by
    intro v rest _
    have hLength : v.toList.length = n := v.length_toList
    rw [dif_pos (by simp [hLength])]
    simp only [List.take_left' hLength, List.drop_left' hLength, Option.some.injEq,
      Prod.mk.injEq, and_true]
    exact Vector.toArray_inj.mp (by simp [Vector.toList])
  decode_sound := by
    intro input v rest h
    split at h
    · cases h
      exact ⟨trivial, by simp⟩
    · cases h

/-- Two values one after the other. -/
def pair (c : Codec α) (d : Codec β) : Codec (α × β) where
  encode p := c.encode p.1 ++ d.encode p.2
  decode input :=
    (c.decode input).bind fun first =>
      (d.decode first.2).bind fun second => some ((first.1, second.1), second.2)
  Canonical p := c.Canonical p.1 ∧ d.Canonical p.2
  decode_encode := by
    intro p rest hp
    simp only [List.append_assoc, c.decode_encode p.1 _ hp.1, Option.bind_some,
      d.decode_encode p.2 _ hp.2]
  decode_sound := by
    intro input p rest h
    simp only [Option.bind_eq_some_iff, Option.some.injEq, Prod.mk.injEq] at h
    obtain ⟨⟨a, mid⟩, hFirst, ⟨b, rest'⟩, hSecond, rfl, rfl⟩ := h
    obtain ⟨ha, rfl⟩ := c.decode_sound hFirst
    obtain ⟨hb, rfl⟩ := d.decode_sound hSecond
    exact ⟨⟨ha, hb⟩, by simp⟩

/-- The same layout read into another representation. -/
def map (c : Codec α) (f : α → β) (g : β → α) (hgf : ∀ a, g (f a) = a)
    (hfg : ∀ b, f (g b) = b) : Codec β where
  encode b := c.encode (g b)
  decode input := (c.decode input).bind fun read => some (f read.1, read.2)
  Canonical b := c.Canonical (g b)
  decode_encode := by
    intro b rest hb
    simp [c.decode_encode (g b) rest hb, hfg]
  decode_sound := by
    intro input b rest h
    simp only [Option.bind_eq_some_iff, Option.some.injEq, Prod.mk.injEq] at h
    obtain ⟨⟨a, rest'⟩, hRead, rfl, rfl⟩ := h
    obtain ⟨ha, rfl⟩ := c.decode_sound hRead
    exact ⟨by rwa [hgf], by rw [hgf]⟩

/-- A list behind its length, the length encoded by `length`. -/
def prefixed (length : Codec Nat) (c : Codec α) : Codec (List α) where
  encode l := length.encode l.length ++ l.flatMap c.encode
  decode input := (length.decode input).bind fun read => decodeCount c.decode read.1 read.2
  Canonical l := length.Canonical l.length ∧ ∀ a ∈ l, c.Canonical a
  decode_encode := by
    intro l rest hl
    simp only [List.append_assoc, length.decode_encode l.length _ hl.1, Option.bind_some,
      c.decodeCount_encode hl.2]
  decode_sound := by
    intro input l rest h
    simp only [Option.bind_eq_some_iff] at h
    obtain ⟨⟨n, mid⟩, hLength, hElements⟩ := h
    obtain ⟨hn, rfl⟩ := length.decode_sound hLength
    obtain ⟨rfl, hAll, rfl⟩ := c.decodeCount_sound hElements
    exact ⟨⟨hn, hAll⟩, by simp⟩

/-- No bytes: a variant without fields. -/
def unit : Codec Unit where
  encode _ := []
  decode input := some ((), input)
  Canonical _ := True
  decode_encode _ _ _ := rfl
  decode_sound := by
    intro input a rest h
    cases h
    exact ⟨trivial, rfl⟩

/-! An unsigned integer of `n` bytes, least significant first: the fixed-width integers of
bincode. -/

def encodeLE : Nat → Nat → List UInt8
  | 0, _ => []
  | n + 1, v => UInt8.ofNat (v % 256) :: encodeLE n (v / 256)

def decodeLE : Nat → Decoder Nat
  | 0, input => some (0, input)
  | _ + 1, [] => none
  | n + 1, b :: rest => (decodeLE n rest).map fun read => (b.toNat + 256 * read.1, read.2)

@[simp] theorem length_encodeLE : ∀ (n v : Nat), (encodeLE n v).length = n
  | 0, _ => rfl
  | n + 1, v => by simp [encodeLE, length_encodeLE n]

theorem decodeLE_encodeLE (rest : List UInt8) :
    ∀ (n v : Nat), v < 256 ^ n → decodeLE n (encodeLE n v ++ rest) = some (v, rest)
  | 0, v, hv => by
      obtain rfl : v = 0 := by simpa using hv
      rfl
  | n + 1, v, hv => by
      have hHigh : v / 256 < 256 ^ n := by
        rw [Nat.pow_succ] at hv
        omega
      have hByte : (UInt8.ofNat (v % 256)).toNat = v % 256 := by
        simp
      simp only [encodeLE, List.cons_append, decodeLE, decodeLE_encodeLE rest n _ hHigh,
        Option.map_some, hByte, Option.some.injEq, Prod.mk.injEq, and_true]
      omega

theorem decodeLE_sound :
    ∀ {n : Nat} {input rest : List UInt8} {v : Nat}, decodeLE n input = some (v, rest) →
      v < 256 ^ n ∧ input = encodeLE n v ++ rest
  | 0, input, rest, v, h => by
      simp only [decodeLE, Option.some.injEq, Prod.mk.injEq] at h
      obtain ⟨rfl, rfl⟩ := h
      exact ⟨by decide, rfl⟩
  | _ + 1, [], _, _, h => by cases h
  | n + 1, b :: input, rest, v, h => by
      simp only [decodeLE, Option.map_eq_some_iff, Prod.mk.injEq] at h
      obtain ⟨⟨high, rest'⟩, hRead, rfl, rfl⟩ := h
      obtain ⟨hHigh, rfl⟩ := decodeLE_sound hRead
      have hb := b.toNat_lt
      have hLow : (b.toNat + 256 * high) % 256 = b.toNat := by omega
      have hDiv : (b.toNat + 256 * high) / 256 = high := by omega
      refine ⟨by rw [Nat.pow_succ]; omega, ?_⟩
      simp only [encodeLE, hLow, hDiv, List.cons_append, List.cons.injEq, and_true]
      exact (UInt8.ofNat_toNat).symm

def uintLE (n : Nat) : Codec Nat where
  encode := encodeLE n
  decode := decodeLE n
  Canonical v := v < 256 ^ n
  decode_encode v rest hv := decodeLE_encodeLE rest n v hv
  decode_sound := decodeLE_sound

/-- One of two layouts behind the index of its variant, `0` for the left one and `1` for the
right one: a bincode enum of two variants. -/
def sum (tag : Codec Nat) (c : Codec α) (d : Codec β) : Codec (α ⊕ β) where
  encode
    | .inl a => tag.encode 0 ++ c.encode a
    | .inr b => tag.encode 1 ++ d.encode b
  decode input := (tag.decode input).bind fun read =>
    match read.1 with
    | 0 => (c.decode read.2).map fun value => (.inl value.1, value.2)
    | 1 => (d.decode read.2).map fun value => (.inr value.1, value.2)
    | _ => none
  Canonical
    | .inl a => tag.Canonical 0 ∧ c.Canonical a
    | .inr b => tag.Canonical 1 ∧ d.Canonical b
  decode_encode := by
    intro value rest hValue
    cases value with
    | inl a => simp [tag.decode_encode 0 _ hValue.1, c.decode_encode a rest hValue.2]
    | inr b => simp [tag.decode_encode 1 _ hValue.1, d.decode_encode b rest hValue.2]
  decode_sound := by
    intro input value rest h
    simp only [Option.bind_eq_some_iff] at h
    obtain ⟨⟨index, mid⟩, hTag, hVariant⟩ := h
    obtain ⟨hIndex, rfl⟩ := tag.decode_sound hTag
    match index, hVariant, hIndex with
    | 0, hVariant, hIndex =>
        simp only [Option.map_eq_some_iff, Prod.mk.injEq] at hVariant
        obtain ⟨⟨a, rest'⟩, hRead, rfl, rfl⟩ := hVariant
        obtain ⟨ha, rfl⟩ := c.decode_sound hRead
        exact ⟨⟨hIndex, ha⟩, by simp⟩
    | 1, hVariant, hIndex =>
        simp only [Option.map_eq_some_iff, Prod.mk.injEq] at hVariant
        obtain ⟨⟨b, rest'⟩, hRead, rfl, rfl⟩ := hVariant
        obtain ⟨hb, rfl⟩ := d.decode_sound hRead
        exact ⟨⟨hIndex, hb⟩, by simp⟩
    | _ + 2, hVariant, _ => cases hVariant

theorem two_pow_eight_mul (n : Nat) : 2 ^ (8 * n) = 256 ^ n := by
  rw [Nat.pow_mul]

open Lib.Word in
/-- A signed integer of `n` bytes: its two's complement word as an unsigned integer of `n`
bytes. These are `i64` and the other signed integers of bincode. -/
def intLE (n : Nat) (hn : 0 < n) : Codec Int where
  encode i := encodeLE n (i % 2 ^ (8 * n)).toNat
  decode input := (decodeLE n input).map fun read => (asSigned (8 * n) read.1, read.2)
  Canonical i := minSigned (8 * n) ≤ i ∧ i ≤ maxSigned (8 * n)
  decode_encode i rest hi := by
    have hWord : (i % 2 ^ (8 * n)).toNat < 256 ^ n := two_pow_eight_mul n ▸ toNat_emod_two_pow_lt i
    rw [decodeLE_encodeLE rest n _ hWord, Option.map_some, asSigned_toNat_emod (by omega) hi.1 hi.2]
  decode_sound := by
    intro input i rest h
    simp only [Option.map_eq_some_iff, Prod.mk.injEq] at h
    obtain ⟨⟨v, rest'⟩, hRead, rfl, rfl⟩ := h
    obtain ⟨hv, rfl⟩ := decodeLE_sound hRead
    have hWord : v < 2 ^ (8 * n) := two_pow_eight_mul n ▸ hv
    exact ⟨asSigned_mem (by omega) hWord, by rw [toNat_emod_asSigned hWord]⟩

end Lib.Codec
