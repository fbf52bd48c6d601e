import Mathlib
import PutValidator.Sdk.ShortVec

/-! `serde_varint` (`sdk/program/src/serde_varint.rs`): an unsigned integer of `bits` bits as
seven bits a byte, low bits first, with the top bit of a byte set when another byte follows. The
macro `impl_var_int!` gives `u16`, `u32` and `u64` the same decoder and encoder, so both are
defined once, over the width. The decoder refuses a last byte whose bits do not fit the width
and a last byte of zero after the first, so every value has exactly one encoding:
`visitSeq_serialize` and `visitSeq_sound` are the two directions. For `u16` the encoding is the
one of `ShortU16`. -/
namespace PutValidator.SerdeVarint

open Lib.Codec

/-- The errors of `VarInt::visit_seq`, by their messages. -/
inductive VarIntError
  /-- "Invalid Sequence": the bytes end inside the value. -/
  | invalidSequence
  /-- "Last Byte Truncated": the last byte has bits above the width. -/
  | lastByteTruncated
  /-- "Invalid Trailing Zeros": a last byte of zero after the first. -/
  | invalidTrailingZeros
  /-- "Left Shift Overflows": every byte up to the width asks for another. -/
  | leftShiftOverflows
deriving DecidableEq, Repr

/-- `VarInt::visit_seq` of the `bits`-bit type: the value, and the bytes after it. -/
def visitSeq (bits : Nat) (seq : List UInt8) : Except VarIntError (Nat × List UInt8) :=
  go ((bits + 6) / 7) 0 0 seq
where
  /-- The loop `while shift < BITS`, with one unit of fuel for each of its at most
  `⌈bits / 7⌉` rounds. -/
  go : Nat → Nat → Nat → List UInt8 → Except VarIntError (Nat × List UInt8)
    | 0, _, _, _ => .error .leftShiftOverflows
    | fuel + 1, shift, out, seq =>
        if shift < bits then
          match seq with
          | [] => .error .invalidSequence
          | byte :: rest =>
              -- `out |= ((byte & 0x7F) as Self) << shift`, in the width of the type
              let out := out ||| ((byte.toNat &&& 0x7f) <<< shift) % 2 ^ bits
              if byte.toNat &&& 0x80 = 0 then
                if (out >>> shift) % 2 ^ 8 ≠ byte.toNat then .error .lastByteTruncated
                else if byte = 0 ∧ (shift ≠ 0 ∨ out ≠ 0) then .error .invalidTrailingZeros
                else .ok (out, rest)
              else go fuel (shift + 7) out rest
        else .error .leftShiftOverflows

/-- `VarInt::serialize`. The loop `while self >= 0x80` runs once for each seven bits above the
first seven; `bits` rounds of fuel are more than a value of the type needs. -/
def serialize (bits value : Nat) : List UInt8 :=
  go bits value
where
  go : Nat → Nat → List UInt8
    | 0, value => [UInt8.ofNat value]
    | fuel + 1, value =>
        if 0x80 ≤ value then UInt8.ofNat ((value &&& 0x7f) ||| 0x80) :: go fuel (value >>> 7)
        else [UInt8.ofNat value]

/-! ### The loops in arithmetic -/

section Arithmetic

variable {bits : Nat}

theorem serialize_go_of_lt {value : Nat} (h : value < 128) :
    ∀ fuel, serialize.go fuel value = [UInt8.ofNat value]
  | 0 => rfl
  | fuel + 1 => by simp [serialize.go, Nat.not_le_of_lt h]

theorem serialize_go_of_le {value : Nat} (h : 128 ≤ value) (fuel : Nat) :
    serialize.go (fuel + 1) value =
      UInt8.ofNat (value % 128 + 128) :: serialize.go fuel (value / 128) := by
  simp only [serialize.go, if_pos h, and_0x7f, or_0x80 (Nat.mod_lt value (by decide)),
    Nat.shiftRight_eq_div_pow]

/-- A byte of the decoder's bits `shift` and above, kept to the width as the type's shift does:
whatever of it does not fit is dropped. -/
theorem accumulate_eq {out shift : Nat} (hShift : shift < bits) (hOut : out < 2 ^ shift)
    (byte : Nat) :
    out ||| ((byte &&& 0x7f) <<< shift) % 2 ^ bits =
      out + byte % 128 % 2 ^ (bits - shift) * 2 ^ shift := by
  have hPow : 2 ^ bits = 2 ^ (bits - shift) * 2 ^ shift := by
    rw [← Nat.pow_add, Nat.sub_add_cancel (Nat.le_of_lt hShift)]
  rw [and_0x7f, Nat.shiftLeft_eq, hPow, Nat.mul_mod_mul_right, or_mul_two_pow hOut]

/-- One round of the decoder's loop, for a shift below the width and bits read so far below
the shift. -/
theorem visitSeq_go_cons {fuel shift out : Nat} (hShift : shift < bits) (hOut : out < 2 ^ shift)
    (byte : UInt8) (rest : List UInt8) :
    visitSeq.go bits (fuel + 1) shift out (byte :: rest) =
      if byte.toNat < 128 then
        if byte.toNat % 2 ^ (bits - shift) ≠ byte.toNat then .error .lastByteTruncated
        else if byte = 0 ∧ (shift ≠ 0 ∨ out + byte.toNat % 2 ^ (bits - shift) * 2 ^ shift ≠ 0)
          then .error .invalidTrailingZeros
        else .ok (out + byte.toNat % 2 ^ (bits - shift) * 2 ^ shift, rest)
      else visitSeq.go bits fuel (shift + 7)
        (out + byte.toNat % 128 % 2 ^ (bits - shift) * 2 ^ shift) rest := by
  have hByte := byte.toNat_lt
  have hRead : ∀ x, (out + x * 2 ^ shift) >>> shift % 2 ^ 8 = x % 2 ^ 8 := by
    intro x
    rw [Nat.shiftRight_eq_div_pow, Nat.add_mul_div_right _ _ (Nat.two_pow_pos shift),
      Nat.div_eq_of_lt hOut, Nat.zero_add]
  simp only [visitSeq.go, if_pos hShift, accumulate_eq hShift hOut, and_0x80_eq_zero_iff hByte,
    hRead]
  by_cases hDone : byte.toNat < 128
  · have hSmall : byte.toNat % 2 ^ (bits - shift) % 2 ^ 8 = byte.toNat % 2 ^ (bits - shift) :=
      Nat.mod_eq_of_lt (Nat.lt_of_le_of_lt (Nat.mod_le _ _) (by omega))
    simp only [if_pos hDone, Nat.mod_eq_of_lt hDone, hSmall]
  · simp only [if_neg hDone]

end Arithmetic

/-! ### Reading an encoding back -/

section RoundTrip

variable {bits : Nat}

/-- The encoding of `y`, read above the `shift` bits `out` already read, gives `y`'s bits at
`shift` and the bytes after it. The induction is on the encoder's fuel; the decoder has a round
for each byte, as the sum stays below `2 ^ bits`. -/
theorem visitSeq_go_serialize_go :
    ∀ (f y fuel shift out : Nat) (rest : List UInt8), y < 2 ^ f → out < 2 ^ shift →
      out + y * 2 ^ shift < 2 ^ bits → (0 < shift → 0 < y) → shift < bits →
      bits ≤ shift + 7 * fuel →
      visitSeq.go bits fuel shift out (serialize.go f y ++ rest) = .ok (out + y * 2 ^ shift, rest)
  | f, y, 0, shift, out, rest, _, _, _, _, hShift, hFuel => absurd hFuel (by omega)
  | f, y, fuel + 1, shift, out, rest, hy, hOut, hSum, hFirst, hShift, hFuel => by
      have hPow : 2 ^ bits = 2 ^ (bits - shift) * 2 ^ shift := by
        rw [← Nat.pow_add, Nat.sub_add_cancel (Nat.le_of_lt hShift)]
      -- the value's bits at `shift` fit the width
      have hFits : y < 2 ^ (bits - shift) :=
        Nat.lt_of_mul_lt_mul_right (hPow ▸ Nat.lt_of_le_of_lt (Nat.le_add_left _ _) hSum)
      rcases Nat.lt_or_ge y 128 with hLast | hMore
      · -- the last byte
        have hByte := toNat_ofNat_of_lt (show y < 256 by omega)
        rw [serialize_go_of_lt hLast, List.singleton_append, visitSeq_go_cons hShift hOut, hByte,
          if_pos hLast, Nat.mod_eq_of_lt hFits, if_neg (not_not.mpr rfl), if_neg]
        rintro ⟨hZero, hNonzero⟩
        have hy0 : y = 0 := by
          rw [← hByte, hZero]
          rfl
        have hShift0 : shift = 0 := by
          by_contra hPos
          exact absurd (hFirst (Nat.pos_of_ne_zero hPos)) (by omega)
        subst hy0 hShift0
        exact hNonzero.elim (fun h => h rfl) (by simp_all)
      · -- a byte that another follows
        obtain ⟨f, rfl⟩ : ∃ f', f = f' + 1 := ⟨f - 1, by
          have : 2 ^ 7 < 2 ^ f := Nat.lt_of_le_of_lt hMore hy
          have := (Nat.pow_lt_pow_iff_right (show 1 < 2 by decide)).mp this
          omega⟩
        have hByte := toNat_ofNat_of_lt (show y % 128 + 128 < 256 by omega)
        have hLow : (y % 128 + 128) % 128 % 2 ^ (bits - shift) = y % 128 := by
          rw [Nat.add_mod_right, Nat.mod_mod, Nat.mod_eq_of_lt (Nat.lt_of_le_of_lt
            (Nat.mod_le y 128) hFits)]
        have hNext : 2 ^ (shift + 7) = 2 ^ shift * 128 := Nat.pow_add 2 shift 7
        have hSplit : out + y % 128 * 2 ^ shift + y / 128 * 2 ^ (shift + 7) = out + y * 2 ^ shift := by
          rw [hNext]
          calc out + y % 128 * 2 ^ shift + y / 128 * (2 ^ shift * 128)
              = out + (y % 128 + 128 * (y / 128)) * 2 ^ shift := by ring
            _ = out + y * 2 ^ shift := by rw [Nat.mod_add_div]
        have hShift' : shift + 7 < bits := by
          have h128 : 2 ^ (shift + 7) ≤ y * 2 ^ shift := by
            rw [hNext, Nat.mul_comm]
            exact Nat.mul_le_mul_right _ hMore
          exact (Nat.pow_lt_pow_iff_right (show 1 < 2 by decide)).mp (by omega)
        rw [serialize_go_of_le hMore, List.cons_append, visitSeq_go_cons hShift hOut, hByte,
          if_neg (by omega), hLow, ← hSplit]
        refine visitSeq_go_serialize_go f (y / 128) fuel (shift + 7) _ rest
          (by rw [Nat.pow_succ] at hy; omega) ?_ (by rw [hSplit]; exact hSum) (fun _ => by omega)
          hShift' (by omega)
        -- the bits read so far stay below the next shift
        have hLe : y % 128 * 2 ^ shift ≤ 127 * 2 ^ shift :=
          Nat.mul_le_mul_right _ (Nat.le_of_lt_succ (Nat.mod_lt y (by decide)))
        rw [hNext]
        omega

/-- Every value of the type is read back from its encoding, whatever follows it. -/
theorem visitSeq_serialize (hBits : 0 < bits) {x : Nat} (hx : x < 2 ^ bits) (rest : List UInt8) :
    visitSeq bits (serialize bits x ++ rest) = .ok (x, rest) := by
  have h : visitSeq.go bits ((bits + 6) / 7) 0 0 (serialize.go bits x ++ rest) =
      .ok (0 + x * 2 ^ 0, rest) :=
    visitSeq_go_serialize_go bits x ((bits + 6) / 7) 0 0 rest hx (Nat.two_pow_pos 0) (by simpa using hx) (fun h => absurd h (Nat.lt_irrefl 0)) hBits
    (by omega)
  rw [visitSeq, serialize]
  simpa using h

/-- Whatever the decoder reads, above the `shift` bits `out` already read, is the encoding of the
bits `y` it adds at `shift`: the sum fits the width, a byte after the first is not a last zero,
and the bytes are the encoding of `y` for every fuel that `y` fits. -/
theorem visitSeq_go_sound :
    ∀ (fuel shift out : Nat) (seq : List UInt8) (x : Nat) (rest : List UInt8),
      visitSeq.go bits fuel shift out seq = .ok (x, rest) → out < 2 ^ shift →
      ∃ y, x = out + y * 2 ^ shift ∧ x < 2 ^ bits ∧ (0 < shift → 0 < y) ∧
        ∀ f, y < 2 ^ f → seq = serialize.go f y ++ rest
  | 0, _, _, _, _, _, h, _ => by cases h
  | fuel + 1, shift, out, seq, x, rest, h, hOut => by
      by_cases hShift : shift < bits
      swap
      · simp [visitSeq.go, hShift] at h
      have hPow : 2 ^ bits = 2 ^ (bits - shift) * 2 ^ shift := by
        rw [← Nat.pow_add, Nat.sub_add_cancel (Nat.le_of_lt hShift)]
      cases seq with
      | nil => simp [visitSeq.go, hShift] at h
      | cons byte seq =>
          rw [visitSeq_go_cons hShift hOut] at h
          have hByteLt := byte.toNat_lt
          by_cases hDone : byte.toNat < 128
          · -- the last byte: its bits fit, and it is not a zero after the first
            rw [if_pos hDone] at h
            split_ifs at h with hTruncated hZero
            obtain ⟨rfl, rfl⟩ := Prod.mk.inj (Except.ok.inj h)
            have hFits : byte.toNat < 2 ^ (bits - shift) :=
              Nat.mod_eq_iff_lt (Nat.two_pow_pos _).ne' |>.mp (not_not.mp hTruncated)
            rw [not_not.mp hTruncated]
            refine ⟨byte.toNat, rfl, ?_, fun hPos => ?_, fun f _ => ?_⟩
            · rw [hPow]
              calc out + byte.toNat * 2 ^ shift < (byte.toNat + 1) * 2 ^ shift := by
                    rw [Nat.add_mul, Nat.one_mul]; omega
                _ ≤ 2 ^ (bits - shift) * 2 ^ shift := Nat.mul_le_mul_right _ hFits
            · refine Nat.pos_of_ne_zero fun hZero' => hZero ⟨?_, .inl (by omega)⟩
              exact UInt8.toNat_inj.mp (by simpa using hZero')
            · rw [serialize_go_of_lt hDone, ofNat_eq_of_toNat_eq rfl]
              rfl
          · -- a byte that another follows: the rest is read above it
            rw [if_neg hDone] at h
            have hNext : 2 ^ (shift + 7) = 2 ^ shift * 128 := Nat.pow_add 2 shift 7
            have hOut' : out + byte.toNat % 128 % 2 ^ (bits - shift) * 2 ^ shift <
                2 ^ (shift + 7) := by
              have hLow : byte.toNat % 128 % 2 ^ (bits - shift) ≤ 127 :=
                Nat.le_trans (Nat.mod_le _ _) (Nat.le_of_lt_succ (Nat.mod_lt _ (by decide)))
              have hLe := Nat.mul_le_mul_right (2 ^ shift) hLow
              rw [hNext]
              omega
            obtain ⟨y, rfl, hx, hPos, hSeq⟩ := visitSeq_go_sound fuel (shift + 7) _ seq _ rest h hOut'
            have hy : 0 < y := hPos (by omega)
            -- the width reaches past this byte, so none of its bits were dropped
            have hWide : shift + 7 < bits := by
              have : 2 ^ (shift + 7) < 2 ^ bits := Nat.lt_of_le_of_lt
                (Nat.le_trans (Nat.le_mul_of_pos_left _ hy) (Nat.le_add_left _ _)) hx
              exact (Nat.pow_lt_pow_iff_right (show 1 < 2 by decide)).mp this
            have hLow : byte.toNat % 128 % 2 ^ (bits - shift) = byte.toNat % 128 :=
              Nat.mod_eq_of_lt (Nat.lt_of_lt_of_le (Nat.mod_lt _ (by decide))
                (Nat.pow_le_pow_right (by decide) (by omega) : 2 ^ 7 ≤ 2 ^ (bits - shift)))
            rw [hLow] at hx ⊢
            refine ⟨byte.toNat % 128 + 128 * y, by rw [hNext]; ring, hx, fun _ => by omega,
              fun f hf => ?_⟩
            obtain ⟨f, rfl⟩ : ∃ f', f = f' + 1 := ⟨f - 1, by
              have : 2 ^ 0 < 2 ^ f := Nat.lt_of_le_of_lt (by omega) hf
              have := (Nat.pow_lt_pow_iff_right (show 1 < 2 by decide)).mp this
              omega⟩
            have hq : (byte.toNat % 128 + 128 * y) / 128 = y := by omega
            have hr : (byte.toNat % 128 + 128 * y) % 128 + 128 = byte.toNat := by omega
            rw [serialize_go_of_le (by omega), hq, hr, ofNat_eq_of_toNat_eq rfl,
              hSeq f (by rw [Nat.pow_succ] at hf; omega)]
            rfl

/-- Whatever the decoder reads is a value of the type, and the bytes it took are its
encoding. -/
theorem visitSeq_sound {seq rest : List UInt8} {x : Nat}
    (h : visitSeq bits seq = .ok (x, rest)) : x < 2 ^ bits ∧ seq = serialize bits x ++ rest := by
  obtain ⟨y, hy, hx, -, hSeq⟩ := visitSeq_go_sound _ 0 0 seq x rest h (Nat.two_pow_pos 0)
  obtain rfl : y = x := by simpa using hy.symm
  exact ⟨hx, hSeq bits hx⟩

end RoundTrip

/-- `#[serde(with = "serde_varint")]`: the value of a `bits`-bit type as its variable-size
encoding. -/
def varint (bits : Nat) (hBits : 0 < bits) : Codec Nat where
  encode := serialize bits
  decode input := (visitSeq bits input).toOption
  Canonical x := x < 2 ^ bits
  decode_encode x rest hx := by
    rw [visitSeq_serialize hBits hx rest]
    rfl
  decode_sound := by
    intro input x rest h
    cases hRead : visitSeq bits input with
    | error e => simp [hRead, Except.toOption] at h
    | ok read =>
        simp only [hRead, Except.toOption, Option.some.injEq] at h
        subst h
        exact visitSeq_sound hRead

/-! ### The `u16` varint and `ShortU16` -/

/-- For `u16` the encoder writes the bytes of `ShortU16::serialize`. -/
theorem serialize_sixteen_eq {v : Nat} (hv : v < 2 ^ 16) : serialize 16 v = encodeShortU16 v := by
  rw [encodeShortU16_eq hv, serialize]
  rcases Nat.lt_or_ge v 128 with h1 | h1
  · rw [serialize_go_of_lt h1, if_pos h1]
  · -- two or three groups of seven bits
    have hQuotient : v / 128 / 128 = v / 2 ^ 14 := by
      rw [Nat.div_div_eq_div_mul]
      rfl
    show serialize.go (15 + 1) v = _
    rw [if_neg (by omega), serialize_go_of_le h1]
    rcases Nat.lt_or_ge v (2 ^ 14) with h2 | h2
    · rw [if_pos h2, serialize_go_of_lt (by omega)]
    · show _ :: serialize.go (14 + 1) (v / 128) = _
      rw [if_neg (by omega), serialize_go_of_le (by omega), serialize_go_of_lt (by omega),
        hQuotient]

/-- For `u16` the varint decoder and the `ShortU16` decoder accept the same bytes, with the
same value and the same bytes after it. -/
theorem visitSeq_sixteen_toOption (bytes : List UInt8) :
    (visitSeq 16 bytes).toOption = shortU16.decode bytes := by
  cases hVarint : visitSeq 16 bytes with
  | ok read =>
      obtain ⟨x, rest⟩ := read
      obtain ⟨hx, rfl⟩ := visitSeq_sound hVarint
      rw [serialize_sixteen_eq hx]
      exact (shortU16.decode_encode x rest hx).symm
  | error e =>
      -- a `ShortU16` read would be a varint read
      cases hShort : shortU16.decode bytes with
      | none => rfl
      | some read =>
          obtain ⟨x, rest⟩ := read
          obtain ⟨hx, rfl⟩ := shortU16.decode_sound hShort
          have hRead := visitSeq_serialize (show 0 < 16 by decide) hx rest
          rw [serialize_sixteen_eq hx] at hRead
          exact absurd (hRead.symm.trans hVarint) (by simp)

/-- `serde_varint` is canonical, for `u16`, `u32`, `u64` and every other width. Every value of
the type is read back from its encoding, whatever follows; whatever the decoder reads is a value
of the type and the bytes it took are its encoding; and for `u16` the decoder accepts exactly
what the `ShortU16` decoder accepts, with the same value, as the two encoders write the same
bytes. -/
theorem serde_varint_canonical :
    (∀ bits, 0 < bits → ∀ x < 2 ^ bits, ∀ rest : List UInt8,
      visitSeq bits (serialize bits x ++ rest) = .ok (x, rest)) ∧
    (∀ (bits : Nat) (seq rest : List UInt8) (x : Nat), visitSeq bits seq = .ok (x, rest) →
      x < 2 ^ bits ∧ seq = serialize bits x ++ rest) ∧
    (∀ bytes : List UInt8, (visitSeq 16 bytes).toOption = shortU16.decode bytes) ∧
    ∀ v < 2 ^ 16, serialize 16 v = encodeShortU16 v :=
  ⟨fun _ hBits _ hx rest => visitSeq_serialize hBits hx rest, fun _ _ _ _ h => visitSeq_sound h,
    visitSeq_sixteen_toOption, fun _ hv => serialize_sixteen_eq hv⟩

theorem serde_varint_canonical_300 :
    visitSeq 64 (serialize 64 300) = .ok (300, []) ∧
      (300 < 2 ^ 64 ∧ [0xac, 0x02] = serialize 64 300 ++ []) ∧
      (visitSeq 16 [0xac, 0x02]).toOption = shortU16.decode [0xac, 0x02] ∧
      serialize 16 300 = encodeShortU16 300 := by
  have h := serde_varint_canonical
  refine ⟨by simpa using h.1 64 (by decide) 300 (by decide) [],
    h.2.1 64 [0xac, 0x02] [] 300 (by decide), h.2.2.1 _, h.2.2.2 300 (by decide)⟩

end PutValidator.SerdeVarint
